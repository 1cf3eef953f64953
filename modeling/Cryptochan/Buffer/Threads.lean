import Cryptochan.Buffer.Model
import Cryptochan.Lib.Run

/-!
# Cryptochan.Buffer.Threads — one writer, one recoder and one reader on a buffer

Every call is split into its atomic steps in program order: the load of the counter, the copy (or
XOR) byte by byte, the store of the thread's own index, `fetch_add`, `fetch_sub`.  `CallPc` lists
the program points of `read`, `write` and `recode_xor`, `NonePc` those of `recode_none`; what a
thread alone knows (`size`, the next index) is carried in the point.  `Sys.step` performs one step
of one thread, so a run of `Sys.step` is an interleaving.

`History` records what went in and out; no step of the code reads it.
-/

namespace Cryptochan

/-- Where `cyclic_buffer_read`, `_write` and `_recode_xor` are, with their live locals. -/
inductive CallPc
  | load (max : ℕ)
  | copy (size nextIdx k : ℕ)
  | storeIdx (size nextIdx : ℕ)
  | fetchAdd (size : ℕ)
  | fetchSub (size : ℕ)
  deriving DecidableEq, Repr

/-- Where `cyclic_buffer_recode_none` is. -/
inductive NonePc
  | load
  | storeIdx (size : ℕ)
  | fetchAdd (size : ℕ)
  | storeZero (size : ℕ)
  deriving DecidableEq, Repr

/-- How a step of a call ends. -/
inductive Cont (π : Type)
  | goto (pc : π)
  | ret (size : ℕ)
  deriving DecidableEq, Repr

/-- The value a step returns, if it returns. -/
def Cont.value {π : Type} : Cont π → ℕ
  | .goto _ => 0
  | .ret size => size

/-- `k` of `size` bytes are done: go on copying (not for `NULL`), or store the index. -/
def copyFrom (arg : Option Region) (size nextIdx k : ℕ) : CallPc :=
  if arg.isSome ∧ k < size then .copy size nextIdx k else .storeIdx size nextIdx

/-- One byte of the copy: the new cell and the new byte on the caller's side. -/
def moveByte : Stage → UInt8 → UInt8 → UInt8 × UInt8
  | .write, _, a => (a, a)
  | .recode, c, a => (c ^^^ a, a)
  | .read, c, _ => (c, c)

/-- One atomic step of a call by the stage `st`; `arg` is `src`, `mask` or `dest`. -/
def callStep (st : Stage) (buf : CyclicBuffer) (arg : Option Region) :
    CallPc → CyclicBuffer × Option Region × Cont CallPc
  | .load max =>
    if buf.available st = 0 then (buf, arg, .ret 0)
    else
      let size := min (buf.available st) max
      (buf, arg, .goto (copyFrom arg size (buf.split st size).next 0))
  | .copy size nextIdx k =>
    match arg with
    | none => (buf, arg, .goto (.storeIdx size nextIdx))
    | some r =>
      let off := buf.byteOffset st size k
      let m := moveByte st (buf.dataPtr off) (r k)
      (buf.setData (Function.update buf.dataPtr off m.1), some (Function.update r k m.2),
        .goto (copyFrom arg size nextIdx (k + 1)))
  | .storeIdx size nextIdx => (buf.setIdx st nextIdx, arg, .goto (.fetchAdd size))
  | .fetchAdd size => (buf.fetchAdd st.next size, arg, .goto (.fetchSub size))
  | .fetchSub size => (buf.fetchSub st size, arg, .ret size)

/-- One atomic step of `cyclic_buffer_recode_none`. -/
def noneStep (buf : CyclicBuffer) : NonePc → CyclicBuffer × Cont NonePc
  | .load => (buf, .goto (.storeIdx (buf.available .recode)))
  | .storeIdx size =>
    (buf.setIdx .recode (u32Add (buf.idx .recode) size % buf.totalSize), .goto (.fetchAdd size))
  | .fetchAdd size => (buf.fetchAdd .read size, .goto (.storeZero size))
  | .storeZero size => (buf.setAvailable .recode 0, .ret size)

/-- The call a thread is in. -/
inductive Op
  | call (arg : Option Region) (pc : CallPc)
  | recodeNone (pc : NonePc)

/-- The bytes accepted by the writes whose copy is done, the mask bytes accepted by the recodes
whose XOR is done, the bytes delivered by the reads that returned, and the sum of the sizes these
returned (reads without a destination included). -/
structure History where
  written : List UInt8
  masked : List UInt8
  delivered : List UInt8
  consumed : ℕ

/-- The bytes a call of `st` accepts.  Without a source the cells count as they are, without a mask
the bytes stay. -/
def accepted (buf : CyclicBuffer) (st : Stage) (size : ℕ) : Option Region → List UInt8
  | some r => bytes r size
  | none => match st with
    | .write => (List.range size).map fun k => buf.dataPtr (buf.byteOffset st size k)
    | _ => List.replicate size 0

namespace History

def copied (h : History) (xs : List UInt8) : Stage → History
  | .write => { h with written := h.written ++ xs }
  | .recode => { h with masked := h.masked ++ xs }
  | .read => h

def returned (h : History) (size : ℕ) (arg : Option Region) : Stage → History
  | .read =>
    { h with
      delivered := h.delivered ++ arg.elim [] (bytes · size)
      consumed := h.consumed + size }
  | _ => h

end History

/-- The buffer and its three threads. -/
structure Sys where
  buf : CyclicBuffer
  calls : Stage → Option Op
  history : History

/-- What can happen next: a thread without a call starts one, or a thread in a call does a step. -/
inductive Event
  | write (src : Option Region) (max : ℕ)
  | recodeXor (mask : Option Region) (max : ℕ)
  | recodeNone
  | read (dest : Option Region) (max : ℕ)
  | step (t : Stage)

namespace Sys

def start (buf : CyclicBuffer) : Sys := ⟨buf, fun _ => none, ⟨[], [], [], 0⟩⟩

def invoke (s : Sys) (t : Stage) (op : Op) : Option Sys :=
  if (s.calls t).isNone then some { s with calls := Function.update s.calls t (some op) } else none

/-- The state after a step of a call of `t`. -/
def afterCall (s : Sys) (t : Stage) : CyclicBuffer × Option Region × Cont CallPc → Sys
  | (buf, arg, .goto pc) =>
    { buf
      calls := Function.update s.calls t (some (.call arg pc))
      history := match pc with
        | .storeIdx size _ => s.history.copied (accepted buf t size arg) t
        | _ => s.history }
  | (buf, arg, .ret size) =>
    { buf
      calls := Function.update s.calls t none
      history := s.history.returned size arg t }

/-- The state after a step of `recode_none`. -/
def afterNone (s : Sys) (t : Stage) : CyclicBuffer × Cont NonePc → Sys
  | (buf, .goto pc) =>
    { buf
      calls := Function.update s.calls t (some (.recodeNone pc))
      history := match pc with
        | .storeIdx size => s.history.copied (accepted buf t size none) t
        | _ => s.history }
  | (buf, .ret _) => { s with buf, calls := Function.update s.calls t none }

def step (s : Sys) : Event → Option Sys
  | .write src max => s.invoke .write (.call src (.load max))
  | .recodeXor mask max => s.invoke .recode (.call mask (.load max))
  | .recodeNone => s.invoke .recode (.recodeNone .load)
  | .read dest max => s.invoke .read (.call dest (.load max))
  | .step t => match s.calls t with
    | none => none
    | some (.call arg pc) => some (s.afterCall t (callStep t s.buf arg pc))
    | some (.recodeNone pc) => some (s.afterNone t (noneStep s.buf pc))

/-- What the next step of `t` returns: the size, and the bytes on the caller's side. -/
def returns (s : Sys) (t : Stage) : Option (ℕ × Option Region) :=
  match s.calls t with
  | none => none
  | some (.call arg pc) => match callStep t s.buf arg pc with
    | (_, arg, .ret size) => some (size, arg)
    | (_, _, .goto _) => none
  | some (.recodeNone pc) => match noneStep s.buf pc with
    | (_, .ret size) => some (size, none)
    | (_, .goto _) => none

/-- The sizes that the calls of `t` return. -/
def returnedSizes (t : Stage) (s : Sys) : Event → Sys → List ℕ
  | .step u, _ => if u = t then ((s.returns t).map Prod.fst).toList else []
  | _, _ => []

/-- No call is in progress. -/
def Quiescent (s : Sys) : Prop := ∀ t, s.calls t = none

end Sys

end Cryptochan
