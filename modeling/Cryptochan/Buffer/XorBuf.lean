import Cryptochan.Buffer.System

/-!
# Cryptochan.Buffer.XorBuf — a cipher stream from one buffer into another

`cyclic_buffer_recode_xor_buf(buf, mask_buf)` in its atomic steps, and the system around it: a
writer and a reader of `buf`, a thread that fills `mask_buf` by one call after the other, and the
recoder.  The nested calls of `cyclic_buffer_recode_xor` are the steps of `Buffer.Threads`; their
mask is read from the cells of `mask_buf` at the moment of each XOR.
-/

namespace Cryptochan

/-- Where `cyclic_buffer_recode_xor_buf` is.  In `xor` a nested call is at `pc`, its mask being
`mask_buf->data_ptr + off`; `second` is the length of the second nested call if there is one still
to come. -/
inductive XorBufPc
  | loadRecode
  | loadMask (availableToRecode : ℕ)
  | xor (size nextIdx off : ℕ) (second : Option ℕ) (pc : CallPc)
  | storeIdx (size nextIdx : ℕ)
  | fetchAdd (size : ℕ)
  | fetchSub (size : ℕ)
  deriving DecidableEq, Repr

/-- The mask of a nested call, as the cells are now. -/
def CyclicBuffer.maskAt (maskBuf : CyclicBuffer) (off : ℕ) : Option Region :=
  some fun k => maskBuf.dataPtr (off + k)

/-- What follows a step of a nested call. -/
def afterXor (size nextIdx off : ℕ) (second : Option ℕ) : Cont CallPc → XorBufPc
  | .goto pc => .xor size nextIdx off second pc
  | .ret _ => match second with
    | some n => .xor size nextIdx 0 none (.load n)
    | none => .storeIdx size nextIdx

/-- One atomic step of `cyclic_buffer_recode_xor_buf`. -/
def xorBufStep (buf maskBuf : CyclicBuffer) :
    XorBufPc → CyclicBuffer × CyclicBuffer × Cont XorBufPc
  | .loadRecode =>
    if buf.available .recode = 0 then (buf, maskBuf, .ret 0)
    else (buf, maskBuf, .goto (.loadMask (buf.available .recode)))
  | .loadMask availableToRecode =>
    if maskBuf.available .read = 0 then (buf, maskBuf, .ret 0)
    else
      let size := min availableToRecode (maskBuf.available .read)
      let sp := maskBuf.split .read size
      let readIdx := maskBuf.idx .read
      if maskBuf.totalSize < u32Add readIdx size then
        (buf, maskBuf, .goto (.xor size sp.next readIdx (some sp.second) (.load sp.first)))
      else (buf, maskBuf, .goto (.xor size sp.next readIdx none (.load size)))
  | .xor size nextIdx off second pc =>
    let r := callStep .recode buf (maskBuf.maskAt off) pc
    (r.1, maskBuf, .goto (afterXor size nextIdx off second r.2.2))
  | .storeIdx size nextIdx => (buf, maskBuf.setIdx .read nextIdx, .goto (.fetchAdd size))
  | .fetchAdd size => (buf, maskBuf.fetchAdd .write size, .goto (.fetchSub size))
  | .fetchSub size => (buf, maskBuf.fetchSub .read size, .ret size)

/-! ### The system -/

/-- The `size` bytes before the index of a stage. -/
def CyclicBuffer.behind (buf : CyclicBuffer) (st : Stage) (size : ℕ) : List UInt8 :=
  (List.range size).map fun j =>
    buf.dataPtr ((buf.idx st + (buf.totalSize - size) + j) % buf.totalSize)

/-- What a step adds to the counter of `st`. -/
def CyclicBuffer.gained (buf buf' : CyclicBuffer) (st : Stage) : ℕ :=
  u32Sub (buf'.available st) (buf.available st)

theorem CyclicBuffer.gained_of_eq {buf buf' : CyclicBuffer} {st : Stage}
    (h : buf'.available st = buf.available st) : buf.gained buf' st = 0 := by
  rw [gained, h, u32Sub_self]

theorem CyclicBuffer.gained_fetchAdd {buf : CyclicBuffer} {st : Stage} {n : ℕ}
    (h : buf.available st + n < 2 ^ 32) : buf.gained (buf.fetchAdd st n) st = n := by
  rw [gained, available_fetchAdd, Function.update_self, u32Add_eq h, u32Sub_eq h (by omega),
    Nat.add_sub_cancel_left]

/-- The bytes that a step makes available to the stage after `st`, by the counter of that stage. -/
def CyclicBuffer.passed (buf buf' : CyclicBuffer) (st : Stage) : List UInt8 :=
  buf.behind st (buf.gained buf' st.next)

theorem CyclicBuffer.passed_of_eq {buf buf' : CyclicBuffer} {st : Stage}
    (h : buf'.available st.next = buf.available st.next) : buf.passed buf' st = [] := by
  rw [passed, gained_of_eq h]
  rfl

@[simp] theorem CyclicBuffer.gained_self (buf : CyclicBuffer) (st : Stage) :
    buf.gained buf st = 0 := gained_of_eq rfl

@[simp] theorem CyclicBuffer.passed_self (buf : CyclicBuffer) (st : Stage) :
    buf.passed buf st = [] := passed_of_eq rfl

/-- The bytes made readable in `buf` and in `mask_buf`, what the recoder added to the counter of the
writer of `mask_buf`, and the sum of the values its calls returned. -/
structure XorHistory where
  recoded : List UInt8
  keyed : List UInt8
  drained : ℕ
  returned : ℕ

/-- `data` is `buf` with its writer and its reader, `mask` is `mask_buf` with the calls of the
thread that fills it. -/
structure XorSys where
  data : Sys
  mask : Sys
  recoder : Option XorBufPc
  history : XorHistory

/-- The calls on `mask_buf` of the thread that fills it. -/
inductive FillCall
  | write (src : Option Region) (max : ℕ)
  | recodeNone
  | recodeXor (mask : Option Region) (max : ℕ)

def FillCall.event : FillCall → Event
  | .write src max => .write src max
  | .recodeNone => .recodeNone
  | .recodeXor mask max => .recodeXor mask max

/-- A thread starts a call or does a step. -/
inductive XorEvent
  | write (src : Option Region) (max : ℕ)
  | read (dest : Option Region) (max : ℕ)
  | fill (c : FillCall)
  | recodeXorBuf
  | writerStep
  | readerStep
  | fillerStep
  | recoderStep

namespace XorSys

def start (buf maskBuf : CyclicBuffer) : XorSys :=
  ⟨Sys.start buf, Sys.start maskBuf, none, ⟨[], [], 0, 0⟩⟩

/-- The filling thread is in no call. -/
def fillerIdle (s : XorSys) : Bool := (s.mask.calls .write).isNone && (s.mask.calls .recode).isNone

/-- The stage the filling thread works as. -/
def fillerStage (s : XorSys) : Stage := if (s.mask.calls .write).isSome then .write else .recode

def fillerStep (s : XorSys) : Option XorSys :=
  (s.mask.step (.step s.fillerStage)).map fun mask =>
    { s with
      mask
      history :=
        { s.history with keyed := s.history.keyed ++ s.mask.buf.passed mask.buf .recode } }

def recoderStep (s : XorSys) (pc : XorBufPc) : XorSys :=
  let r := xorBufStep s.data.buf s.mask.buf pc
  { data := { s.data with buf := r.1 }
    mask := { s.mask with buf := r.2.1 }
    recoder := match r.2.2 with
      | .goto pc => some pc
      | .ret _ => none
    history :=
      { s.history with
        recoded := s.history.recoded ++ s.data.buf.passed r.1 .recode
        drained := s.history.drained + s.mask.buf.gained r.2.1 .write
        returned := s.history.returned + r.2.2.value } }

def step (s : XorSys) : XorEvent → Option XorSys
  | .write src max => (s.data.step (.write src max)).map fun data => { s with data }
  | .read dest max => (s.data.step (.read dest max)).map fun data => { s with data }
  | .fill c => if s.fillerIdle then (s.mask.step c.event).map fun mask => { s with mask } else none
  | .recodeXorBuf => if s.recoder.isNone then some { s with recoder := some .loadRecode } else none
  | .writerStep => (s.data.step (.step .write)).map fun data => { s with data }
  | .readerStep => (s.data.step (.step .read)).map fun data => { s with data }
  | .fillerStep => s.fillerStep
  | .recoderStep => s.recoder.map s.recoderStep

end XorSys

end Cryptochan
