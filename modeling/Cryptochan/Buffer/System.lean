import Cryptochan.Buffer.Stream
import Cryptochan.Buffer.Refine

/-!
# Cryptochan.Buffer.System — the three threads together

`Sys.Inv` says that every thread is where the ledger believes it to be and that the cells hold the
streams; `Sys.Inv.step` keeps it through every event.  Between calls it gives back the sequential
picture (`Sys.Inv.represents`): unless a `recode_none` lost something, the buffer represents the
FIFO of the bytes written and not yet read.
-/

namespace Cryptochan

open Circular CreditRing

/-! ### The ledger's view of the threads -/

namespace Op

def phase : Op → Phase
  | .call _ pc => pc.phase
  | .recodeNone pc => pc.phase

def done : Op → ℕ
  | .call _ pc => pc.done
  | .recodeNone pc => pc.done

/-- The bytes of a copy that is not yet complete. -/
def pending : Op → List UInt8
  | .call (some r) (.copy _ _ k) => bytes r k
  | _ => []

end Op

/-- The stream that a stage feeds. -/
def History.stream (h : History) : Stage → List UInt8
  | .write => h.written
  | .recode => h.masked
  | .read => []

namespace Sys

variable (s : Sys)

def phase (t : Stage) : Phase := (s.calls t).elim .idle Op.phase

def done (t : Stage) : ℕ := (s.calls t).elim 0 Op.done

def pending (t : Stage) : List UInt8 := (s.calls t).elim [] Op.pending

/-- All bytes written, all mask bytes used, those of a copy or XOR in progress included. -/
def stream (t : Stage) : List UInt8 := s.history.stream t ++ s.pending t

end Sys

/-- Every thread is at a point of a function it may call, with locals that fit. -/
structure Sys.WellFormed (s : Sys) : Prop where
  ok : ∀ t arg pc, s.calls t = some (.call arg pc) → pc.Ok s.buf t arg
  recoder : ∀ t pc, s.calls t = some (.recodeNone pc) → t = .recode

/-- The invariant, with the ghost positions and leaks. -/
structure Sys.Inv (s : Sys) (pos leak : Stage → ℕ) : Prop extends s.WellFormed where
  streams : Streams s.buf s.phase s.done pos leak (s.stream .write) (s.stream .recode)
  consumed : s.history.consumed + (s.phase .read).owed = pos .read

/-- The positions after an event. -/
def Sys.nextPos (s : Sys) (pos : Stage → ℕ) : Event → Stage → ℕ
  | .step t => match s.calls t with
    | some (.call _ pc) => pc.advance t pos
    | some (.recodeNone pc) => pc.advance pos
    | none => pos
  | _ => pos

/-- The leaks after an event. -/
def Sys.nextLeak (s : Sys) (leak : Stage → ℕ) : Event → Stage → ℕ
  | .step t => match s.calls t with
    | some (.recodeNone pc) => pc.leak s.buf leak
    | _ => leak
  | _ => leak

/-! ### What a step leaves on the caller's side -/

/-- Only a read writes to the caller's bytes. -/
theorem callStep_arg {st : Stage} (hst : st ≠ .read) (buf : CyclicBuffer) (arg : Option Region)
    (pc : CallPc) : (callStep st buf arg pc).2.1 = arg := by
  cases pc with
  | load max => unfold callStep; split_ifs <;> rfl
  | copy size nextIdx k =>
    cases arg with
    | none => rfl
    | some r =>
      cases st with
      | read => exact absurd rfl hst
      | write | recode => exact congrArg some (Function.update_eq_self k r)
  | storeIdx | fetchAdd | fetchSub => rfl

section History

variable {s : Sys} {t : Stage}

theorem phase_invoke {op : Op} (hc : s.calls t = none) (hop : op.phase = .idle) :
    ({ s with calls := Function.update s.calls t (some op) } : Sys).phase = s.phase := by
  funext u
  by_cases hu : u = t
  · subst hu; simp [Sys.phase, hc, hop]
  · simp [Sys.phase, hu]

theorem done_invoke {op : Op} (hc : s.calls t = none) (hop : op.done = 0) :
    ({ s with calls := Function.update s.calls t (some op) } : Sys).done = s.done := by
  funext u
  by_cases hu : u = t
  · subst hu; simp [Sys.done, hc, hop]
  · simp [Sys.done, hu]

theorem pending_invoke {op : Op} (hc : s.calls t = none) (hop : op.pending = []) :
    ({ s with calls := Function.update s.calls t (some op) } : Sys).pending = s.pending := by
  funext u
  by_cases hu : u = t
  · subst hu; simp [Sys.pending, hc, hop]
  · simp [Sys.pending, hu]

theorem buf_invoke {op : Op} {s' : Sys} (hs : s.invoke t op = some s') : s'.buf = s.buf := by
  unfold Sys.invoke at hs
  split_ifs at hs
  obtain rfl := Option.some.inj hs
  rfl

theorem calls_invoke {op : Op} {s' : Sys} (hs : s.invoke t op = some s') :
    s'.calls = Function.update s.calls t (some op) := by
  unfold Sys.invoke at hs
  split_ifs at hs
  obtain rfl := Option.some.inj hs
  rfl

theorem stream_invoke {op : Op} {s' : Sys} (hop : op.pending = []) (hs : s.invoke t op = some s') :
    s'.stream = s.stream := by
  unfold Sys.invoke at hs
  split_ifs at hs with hc
  obtain rfl := Option.some.inj hs
  rw [Option.isNone_iff_eq_none] at hc
  funext u
  rw [Sys.stream, pending_invoke hc hop]
  rfl

theorem phase_afterCall (r : CyclicBuffer × Option Region × Cont CallPc) :
    (s.afterCall t r).phase = Function.update s.phase t (r.2.2.phase CallPc.phase) := by
  obtain ⟨buf, arg, c⟩ := r
  funext u
  cases c <;> by_cases hu : u = t <;> simp [Sys.phase, Sys.afterCall, Cont.phase, Op.phase, hu]

theorem done_afterCall (r : CyclicBuffer × Option Region × Cont CallPc) :
    (s.afterCall t r).done = Function.update s.done t (r.2.2.done CallPc.done) := by
  obtain ⟨buf, arg, c⟩ := r
  funext u
  cases c <;> by_cases hu : u = t <;> simp [Sys.done, Sys.afterCall, Cont.done, Op.done, hu]

theorem phase_afterNone (r : CyclicBuffer × Cont NonePc) :
    (s.afterNone t r).phase = Function.update s.phase t (r.2.phase NonePc.phase) := by
  obtain ⟨buf, c⟩ := r
  funext u
  cases c <;> by_cases hu : u = t <;> simp [Sys.phase, Sys.afterNone, Cont.phase, Op.phase, hu]

theorem done_afterNone (r : CyclicBuffer × Cont NonePc) :
    (s.afterNone t r).done = Function.update s.done t (r.2.done NonePc.done) := by
  obtain ⟨buf, c⟩ := r
  funext u
  cases c <;> by_cases hu : u = t <;> simp [Sys.done, Sys.afterNone, Cont.done, Op.done, hu]

@[simp] theorem buf_afterCall (r : CyclicBuffer × Option Region × Cont CallPc) :
    (s.afterCall t r).buf = r.1 := by
  obtain ⟨buf, arg, c⟩ := r
  cases c <;> rfl

@[simp] theorem buf_afterNone (r : CyclicBuffer × Cont NonePc) :
    (s.afterNone t r).buf = r.1 := by
  obtain ⟨buf, c⟩ := r
  cases c <;> rfl

theorem calls_afterCall (r : CyclicBuffer × Option Region × Cont CallPc) :
    (s.afterCall t r).calls = Function.update s.calls t (match r.2.2 with
      | .goto pc => some (.call r.2.1 pc)
      | .ret _ => none) := by
  obtain ⟨buf, arg, c⟩ := r
  cases c <;> rfl

theorem calls_afterNone (r : CyclicBuffer × Cont NonePc) :
    (s.afterNone t r).calls = Function.update s.calls t (match r.2 with
      | .goto pc => some (.recodeNone pc)
      | .ret _ => none) := by
  obtain ⟨buf, c⟩ := r
  cases c <;> rfl

@[simp] theorem stream_copied_self {h : History} {xs : List UInt8} (ht : t ≠ .read) :
    (h.copied xs t).stream t = h.stream t ++ xs := by
  cases t with
  | read => exact absurd rfl ht
  | write | recode => rfl

@[simp] theorem stream_copied_of_ne {h : History} {xs : List UInt8} {u : Stage} (hu : u ≠ t) :
    (h.copied xs t).stream u = h.stream u := by
  cases t <;> cases u <;> first | rfl | exact absurd rfl hu

@[simp] theorem stream_returned {h : History} {n : ℕ} {arg : Option Region} (u : Stage) :
    (h.returned n arg t).stream u = h.stream u := by
  cases t <;> cases u <;> rfl

theorem pending_afterCall (r : CyclicBuffer × Option Region × Cont CallPc) :
    (s.afterCall t r).pending = Function.update s.pending t (match r.2.2 with
      | .goto pc => (Op.call r.2.1 pc).pending
      | .ret _ => []) := by
  obtain ⟨buf, arg, c⟩ := r
  funext u
  cases c <;> by_cases hu : u = t <;> simp [Sys.pending, Sys.afterCall, hu]

/-- The streams of the other stages stay. -/
theorem stream_afterCall_of_ne {u : Stage} (hu : u ≠ t)
    (r : CyclicBuffer × Option Region × Cont CallPc) :
    (s.afterCall t r).stream u = s.stream u := by
  have hp : (s.afterCall t r).pending u = s.pending u := by
    rw [pending_afterCall, Function.update_of_ne hu]
  have hh : (s.afterCall t r).history.stream u = s.history.stream u := by
    obtain ⟨buf, arg, c⟩ := r
    cases c with
    | ret n => exact stream_returned u
    | goto pc => cases pc <;> first | rfl | exact stream_copied_of_ne hu
  rw [Sys.stream, hp, hh, Sys.stream]

/-- Where the copy loop goes next: the bytes done so far are pending or recorded. -/
theorem stream_copyFrom (ht : t ≠ .read) (buf : CyclicBuffer) (r : Region) {size nextIdx k : ℕ}
    (hk : k ≤ size) :
    (s.afterCall t (buf, some r, .goto (copyFrom (some r) size nextIdx k))).stream t =
      s.history.stream t ++ bytes r k := by
  by_cases hlt : k < size
  · have e : copyFrom (some r) size nextIdx k = .copy size nextIdx k := by simp [copyFrom, hlt]
    rw [Sys.stream, pending_afterCall, e, Function.update_self]
    rfl
  · obtain rfl : k = size := by omega
    have e : copyFrom (some r) k nextIdx k = .storeIdx k nextIdx := by simp [copyFrom]
    rw [Sys.stream, pending_afterCall, e, Function.update_self]
    simp [Sys.afterCall, stream_copied_self ht, Op.pending, accepted]

/-- A step of a call adds its bytes to the stream of its stage. -/
theorem stream_afterCall_self (ht : t ≠ .read) {arg : Option Region} {pc : CallPc}
    (hc : s.calls t = some (.call arg pc)) (hok : pc.Ok s.buf t arg) :
    (s.afterCall t (callStep t s.buf arg pc)).stream t =
      s.stream t ++ stepBytes t s.buf arg pc := by
  have hs : s.stream t = s.history.stream t ++ (Op.call arg pc).pending := by
    rw [Sys.stream, Sys.pending, hc]
    rfl
  rw [hs]
  cases pc with
  | load max =>
    by_cases hz : s.buf.available t = 0
    · have hb : stepBytes t s.buf arg (.load max) = [] := by cases arg <;> simp [stepBytes, hz]
      rw [hb, Sys.stream, pending_afterCall]
      cases arg <;> simp [callStep, hz, Sys.afterCall, Op.pending]
    · cases arg with
      | none =>
        rw [Sys.stream, pending_afterCall]
        simp [callStep, hz, Sys.afterCall, Op.pending, copyFrom, stepBytes, stream_copied_self ht]
      | some r =>
        have e : callStep t s.buf (some r) (.load max) = (s.buf, some r, .goto (copyFrom (some r)
            (min (s.buf.available t) max) (s.buf.split t (min (s.buf.available t) max)).next 0)) := by
          simp [callStep, hz]
        rw [e, stream_copyFrom ht _ _ (Nat.zero_le _)]
        simp [Op.pending, stepBytes]
  | copy size nextIdx k =>
    obtain ⟨-, hk, hsome⟩ := hok
    obtain ⟨r, rfl⟩ := Option.isSome_iff_exists.mp hsome
    have ha := callStep_arg ht s.buf (some r) (.copy size nextIdx k)
    have e : callStep t s.buf (some r) (.copy size nextIdx k) =
        ((callStep t s.buf (some r) (.copy size nextIdx k)).1, some r,
          .goto (copyFrom (some r) size nextIdx (k + 1))) := by
      refine Prod.ext rfl (Prod.ext ha rfl)
    have hb : stepBytes t s.buf (some r) (.copy size nextIdx k) = [r k] := by
      cases t with
      | read => exact absurd rfl ht
      | write | recode => rfl
    rw [e, stream_copyFrom ht _ _ hk, hb, bytes_succ, Op.pending, List.append_assoc]
  | storeIdx size nextIdx | fetchAdd size | fetchSub size =>
    rw [Sys.stream, pending_afterCall]
    simp [callStep, Sys.afterCall, Op.pending, stepBytes]

/-- Both at once. -/
theorem stream_afterCall {arg : Option Region} {pc : CallPc}
    (hc : s.calls t = some (.call arg pc)) (hok : pc.Ok s.buf t arg) {u : Stage} (hu : u ≠ .read) :
    (s.afterCall t (callStep t s.buf arg pc)).stream u =
      grow t u (s.stream u) (stepBytes t s.buf arg pc) := by
  unfold grow
  split_ifs with htu
  · subst htu
    exact stream_afterCall_self hu hc hok
  · exact stream_afterCall_of_ne (Ne.symm htu) _

theorem consumed_copied (h : History) (xs : List UInt8) (t : Stage) :
    (h.copied xs t).consumed = h.consumed := by
  cases t <;> rfl

theorem consumed_goto (buf : CyclicBuffer) (arg : Option Region) (pc : CallPc) :
    (s.afterCall t (buf, arg, .goto pc)).history.consumed = s.history.consumed := by
  cases pc <;> first | rfl | exact consumed_copied _ _ _

theorem consumed_afterCall_of_ne (ht : t ≠ .read) (r : CyclicBuffer × Option Region × Cont CallPc) :
    (s.afterCall t r).history.consumed = s.history.consumed := by
  obtain ⟨buf, arg, c⟩ := r
  cases c with
  | goto pc => exact consumed_goto buf arg pc
  | ret n => cases t <;> first | rfl | exact absurd rfl ht

theorem consumed_afterNone (r : CyclicBuffer × Cont NonePc) :
    (s.afterNone t r).history.consumed = s.history.consumed := by
  obtain ⟨buf, c⟩ := r
  cases c with
  | goto pc => cases pc <;> first | rfl | exact consumed_copied _ _ _
  | ret n => rfl

theorem stream_afterNone {pc : NonePc} (hc : s.calls .recode = some (.recodeNone pc)) :
    (s.afterNone .recode (noneStep s.buf pc)).stream .write = s.stream .write ∧
      (s.afterNone .recode (noneStep s.buf pc)).stream .recode =
        s.stream .recode ++ noneBytes s.buf pc := by
  cases pc <;>
    simp [Sys.stream, Sys.pending, Sys.afterNone, noneStep, hc, Op.pending, noneBytes,
      History.stream, History.copied, accepted]

end History

theorem Sys.length_pending_le (s : Sys) (t : Stage) : (s.pending t).length ≤ s.done t := by
  rw [Sys.pending, Sys.done]
  cases s.calls t with
  | none => exact Nat.le_refl 0
  | some op =>
    cases op with
    | recodeNone pc => exact Nat.zero_le _
    | call arg pc =>
      cases arg with
      | none => exact Nat.zero_le _
      | some r =>
        cases pc with
        | copy size nextIdx k => exact (length_bytes r k).le
        | load | storeIdx | fetchAdd | fetchSub => exact Nat.zero_le _

/-! ### The program points -/

namespace Sys.WellFormed

variable {s s' : Sys} {t : Stage}

theorem start (buf : CyclicBuffer) : (Sys.start buf).WellFormed :=
  ⟨fun _ _ _ ht => absurd ht (by simp [Sys.start]), fun _ _ ht => absurd ht (by simp [Sys.start])⟩

theorem invoke (h : s.WellFormed) {op : Op} (hok : ∀ arg pc, op = .call arg pc → pc.Ok s.buf t arg)
    (hn : ∀ pc, op = .recodeNone pc → t = .recode) (hs : s.invoke t op = some s') :
    s'.WellFormed := by
  unfold Sys.invoke at hs
  split_ifs at hs
  obtain rfl := Option.some.inj hs
  refine ⟨?_, ?_⟩
  · intro u arg pc hu
    by_cases hut : u = t
    · subst hut
      have hu' : Function.update s.calls u (some op) u = some (.call arg pc) := hu
      rw [Function.update_self] at hu'
      exact hok arg pc (Option.some.inj hu')
    · exact h.ok u arg pc ((Function.update_of_ne hut _ _).symm.trans hu)
  · intro u pc hu
    by_cases hut : u = t
    · subst hut
      have hu' : Function.update s.calls u (some op) u = some (.recodeNone pc) := hu
      rw [Function.update_self] at hu'
      exact hn pc (Option.some.inj hu')
    · exact h.recoder u pc ((Function.update_of_ne hut _ _).symm.trans hu)

theorem call (h : s.WellFormed) {arg : Option Region} {pc : CallPc}
    (hok : (callStep t s.buf arg pc).2.2.Ok (callStep t s.buf arg pc).1 t
      (callStep t s.buf arg pc).2.1) : (s.afterCall t (callStep t s.buf arg pc)).WellFormed := by
  have hf := callStep_frame t s.buf arg pc
  refine ⟨?_, ?_⟩
  · intro u arg' pc' hu
    rw [calls_afterCall] at hu
    rw [buf_afterCall]
    by_cases hut : u = t
    · subst hut
      rw [Function.update_self] at hu
      revert hok hu
      cases (callStep u s.buf arg pc).2.2 with
      | goto pc1 =>
        rintro hok ⟨⟩
        exact hok
      | ret n => rintro - ⟨⟩
    · rw [Function.update_of_ne hut] at hu
      exact (h.ok u arg' pc' hu).frame hf hut
  · intro u pc' hu
    rw [calls_afterCall] at hu
    by_cases hut : u = t
    · subst hut
      rw [Function.update_self] at hu
      revert hu
      cases (callStep u s.buf arg pc).2.2 <;> rintro ⟨⟩
    · rw [Function.update_of_ne hut] at hu
      exact h.recoder u pc' hu

theorem recodeNone (h : s.WellFormed) (pc : NonePc) :
    (s.afterNone .recode (noneStep s.buf pc)).WellFormed := by
  have hf := noneStep_frame s.buf pc
  refine ⟨?_, ?_⟩
  · intro u arg' pc' hu
    rw [calls_afterNone] at hu
    rw [buf_afterNone]
    by_cases hut : u = .recode
    · subst hut
      rw [Function.update_self] at hu
      revert hu
      cases (noneStep s.buf pc).2 <;> rintro ⟨⟩
    · rw [Function.update_of_ne hut] at hu
      exact (h.ok u arg' pc' hu).frame hf hut
  · intro u pc' hu
    rw [calls_afterNone] at hu
    by_cases hut : u = .recode
    · exact hut
    · rw [Function.update_of_ne hut] at hu
      exact h.recoder u pc' hu

end Sys.WellFormed

/-! ### The invariant -/

namespace Sys.Inv

variable {s s' : Sys} {pos leak : Stage → ℕ}

theorem start {buf : CyclicBuffer} (h : buf.Sized) (hi : ∀ st, buf.idx st = 0)
    (hr : buf.available .read = 0) (hc : buf.available .recode = 0)
    (hw : buf.available .write = buf.totalSize) :
    (Sys.start buf).Inv (fun _ => 0) (fun _ => 0) := by
  exact ⟨.start buf, ⟨⟨Balanced.init h hi hr hc hw, rfl, rfl, Staged.empty _ _⟩, Nat.le_refl _⟩, rfl⟩

theorem callAt (h : s.Inv pos leak) {t : Stage} {arg : Option Region} {pc : CallPc}
    (ht : s.calls t = some (.call arg pc)) : CallAt s.buf s.phase s.done t arg pc := by
  refine ⟨?_, ?_, h.ok t arg pc ht⟩
  · rw [Sys.phase, ht]; rfl
  · rw [Sys.done, ht]; rfl

/-- A thread without a call starts one. -/
theorem invoke (h : s.Inv pos leak) {t : Stage} {op : Op} (hp : op.phase = .idle)
    (hd : op.done = 0) (hb : op.pending = []) (hok : ∀ arg pc, op = .call arg pc → pc.Ok s.buf t arg)
    (hn : ∀ pc, op = .recodeNone pc → t = .recode) (hs : s.invoke t op = some s') :
    s'.Inv pos leak := by
  have hwf := h.toWellFormed.invoke hok hn hs
  have hstream := stream_invoke hb hs
  unfold Sys.invoke at hs
  split_ifs at hs with hc
  obtain rfl := Option.some.inj hs
  rw [Option.isNone_iff_eq_none] at hc
  refine ⟨hwf, ?_, ?_⟩
  · rw [phase_invoke hc hp, done_invoke hc hd, hstream]
    exact h.streams
  · rw [phase_invoke hc hp]
    exact h.consumed

/-- The reads count what they passed on. -/
theorem consumed_call (h : s.Inv pos leak) {t : Stage} {arg : Option Region} {pc : CallPc}
    (ht : s.calls t = some (.call arg pc)) :
    (s.afterCall t (callStep t s.buf arg pc)).history.consumed +
      ((s.afterCall t (callStep t s.buf arg pc)).phase .read).owed = pc.advance t pos .read := by
  have hc := h.consumed
  rw [phase_afterCall]
  by_cases hr : t = .read
  · subst hr
    have hph : s.phase .read = pc.phase := (h.callAt ht).phase
    rw [hph] at hc
    rw [Function.update_self]
    cases pc with
    | load max =>
      by_cases hz : s.buf.available .read = 0
      · have hc' : s.history.consumed + 0 = pos .read := hc
        simpa [callStep, hz, Sys.afterCall, History.returned, Cont.phase, CallPc.advance] using hc'
      · have hcp := copyFrom_phase arg (min (s.buf.available .read) max)
          (s.buf.split .read (min (s.buf.available .read) max)).next 0
        simp only [callStep, if_neg hz, Cont.phase, hcp]
        rw [consumed_goto]
        exact hc
    | copy size nextIdx k =>
      obtain ⟨r, rfl⟩ := Option.isSome_iff_exists.mp (h.ok _ _ _ ht).2.2
      have hcp := copyFrom_phase (some r) size nextIdx (k + 1)
      simp only [callStep, Cont.phase, hcp]
      rw [consumed_goto]
      exact hc
    | storeIdx size nextIdx => exact hc
    | fetchAdd size =>
      simp only [callStep, Cont.phase, CallPc.advance, Function.update_self]
      exact congrArg (· + size) hc
    | fetchSub size => exact hc
  · rw [Function.update_of_ne (Ne.symm hr), consumed_afterCall_of_ne hr, hc]
    cases pc with
    | fetchAdd size => exact (Function.update_of_ne (Ne.symm hr) _ _).symm
    | load | copy | storeIdx | fetchSub => rfl

/-- A step of `read`, `write` or `recode_xor`. -/
theorem call (h : s.Inv pos leak) {t : Stage} {arg : Option Region} {pc : CallPc}
    (ht : s.calls t = some (.call arg pc)) :
    (s.afterCall t (callStep t s.buf arg pc)).Inv (pc.advance t pos) leak := by
  obtain ⟨hst, hok⟩ := callStep_streams h.streams (h.callAt ht)
  refine ⟨h.toWellFormed.call hok, ?_, h.consumed_call ht⟩
  rw [buf_afterCall, phase_afterCall, done_afterCall,
    stream_afterCall ht (h.ok _ _ _ ht) (by simp), stream_afterCall ht (h.ok _ _ _ ht) (by simp)]
  exact hst

/-- A step of `recode_none`. -/
theorem recodeNone (h : s.Inv pos leak) {pc : NonePc}
    (ht : s.calls .recode = some (.recodeNone pc)) :
    (s.afterNone .recode (noneStep s.buf pc)).Inv (pc.advance pos) (pc.leak s.buf leak) := by
  have hst := noneStep_streams h.streams pc (by rw [Sys.phase, ht]; rfl)
    (by rw [Sys.done, ht]; rfl)
  obtain ⟨e1, e2⟩ := stream_afterNone ht
  refine ⟨h.toWellFormed.recodeNone pc, ?_, ?_⟩
  · rw [buf_afterNone, phase_afterNone, done_afterNone, e1, e2]
    exact hst
  · have hc := h.consumed
    rw [phase_afterNone, consumed_afterNone, Function.update_of_ne (by simp)]
    rw [hc]
    cases pc with
    | fetchAdd size => exact (Function.update_of_ne (by simp) _ _).symm
    | load | storeIdx | storeZero => rfl

/-- **One event keeps the invariant.** -/
theorem step (h : s.Inv pos leak) {e : Event} (hs : s.step e = some s') :
    s'.Inv (s.nextPos pos e) (s.nextLeak leak e) := by
  cases e with
  | write src max | recodeXor src max | read src max =>
    refine h.invoke rfl rfl ?_ ?_ ?_ hs
    · cases src <;> rfl
    · rintro _ _ ⟨⟩
      exact trivial
    · rintro _ ⟨⟩
  | recodeNone =>
    refine h.invoke rfl rfl rfl ?_ ?_ hs
    · rintro _ _ ⟨⟩
    · intro _ _
      rfl
  | step t =>
    rw [Sys.step] at hs
    rw [Sys.nextPos, Sys.nextLeak]
    split at hs
    · exact absurd hs (by simp)
    · next arg pc ht =>
      obtain rfl := Option.some.inj hs
      simp only [ht]
      exact h.call ht
    · next pc ht =>
      obtain rfl := Option.some.inj hs
      obtain rfl := h.recoder t pc ht
      simp only [ht]
      exact h.recodeNone ht

/-! #### Between calls -/

theorem phase_of_none {t : Stage} (ht : s.calls t = none) : s.phase t = .idle := by
  rw [Sys.phase, ht]
  rfl

theorem done_of_none {t : Stage} (ht : s.calls t = none) : s.done t = 0 := by
  rw [Sys.done, ht]
  rfl

theorem stream_of_none {t : Stage} (ht : s.calls t = none) :
    s.stream t = s.history.stream t := by
  rw [Sys.stream, Sys.pending, ht]
  exact List.append_nil _

/-- With no call in progress the positions are the lengths of the histories. -/
theorem lengths (h : s.Inv pos leak) (hq : s.Quiescent) :
    s.history.written.length = pos .write ∧ s.history.masked.length = pos .recode ∧
      s.history.consumed = pos .read := by
  have hw := h.streams.piped.written
  have hm := h.streams.length_masked
  have hc := h.consumed
  rw [done_of_none (hq _), stream_of_none (hq _)] at hw hm
  rw [phase_of_none (hq _)] at hc
  exact ⟨hw, hm, hc⟩

/-- What has leaked is missing from the sum of the counters. -/
theorem sum_available (h : s.Inv pos leak) (hq : s.Quiescent) :
    s.buf.available .read + s.buf.available .recode + s.buf.available .write + leak .recode =
      s.buf.totalSize := by
  have hb := h.streams.piped.balanced
  have h1 := hb.credit_write
  have h2 := hb.credit_recode
  have h3 := hb.credit_read
  rw [phase_of_none (hq _), Phase.owed_idle] at h1 h2 h3
  omega

/-- **Between calls** a buffer that has not leaked is the FIFO of the bytes written and not yet
read. -/
theorem represents (h : s.Inv pos leak) (hq : s.Quiescent) (hl : leak .recode = 0) :
    Represents s.buf.totalSize s.buf (s.history.written.drop s.history.masked.length)
      ((xorStream s.history.written s.history.masked).drop s.history.consumed) := by
  obtain ⟨ew, em, ec⟩ := h.lengths hq
  have hb := h.streams.piped.balanced
  have hst := h.streams.piped.staged
  have h1 := hb.credit_write
  have h2 := hb.credit_recode
  have h3 := hb.credit_read
  have g1 := hb.held_write
  have g2 := hb.held_recode
  have g3 := hb.held_read
  have hidx : ∀ t, s.buf.idx t = pos t % s.buf.totalSize := by
    intro t
    rw [hb.idx_eq t, phase_of_none (hq t)]
    rfl
  rw [phase_of_none (hq _)] at h1 h2 h3 g1 g2 g3
  simp only [Phase.owed_idle, Phase.held_idle, Nat.add_zero, hl] at h1 h2 h3 g1 g2 g3
  rw [stream_of_none (hq _), stream_of_none (hq _)] at hst
  simp only [History.stream] at hst
  have hx : (xorStream s.history.written s.history.masked).length = pos .recode := by
    rw [length_xorStream (by omega), em]
  have hholds := hst.holds
  rw [hx, ← em, ← ec] at hholds
  refine ⟨hb.sized, rfl, ?_, ?_, ?_, ?_, ?_, hb.idx_lt _, ?_, ?_⟩
  · simp only [List.length_drop, hx]
    omega
  · rw [hidx, holds_mod, ← ec]
    exact hholds
  · simp only [List.length_drop, hx]
    omega
  · simp only [List.length_drop]
    omega
  · simp only [List.length_drop, hx]
    omega
  · rw [hidx, hidx, Nat.mod_add_mod, List.length_drop, hx]
    congr 1
    omega
  · rw [hidx, hidx, List.length_drop, List.length_drop, hx, Nat.add_assoc, Nat.mod_add_mod]
    congr 1
    omega

end Sys.Inv

/-! ### Runs from `cyclic_buffer_init` -/

section Runs

variable {malloc : ℕ → Option Region} {chunks : ℤ} {buf : CyclicBuffer}

theorem start_inv (h1 : 1 ≤ chunks) (h2 : chunks ≤ 0x40000)
    (hinit : cyclicBufferInit malloc chunks = .ok buf) :
    (Sys.start buf).Inv (fun _ => 0) (fun _ => 0) := by
  obtain ⟨hsized, -, hidx, hr, hc, hw⟩ := cyclicBufferInit_ok h1 h2 hinit
  exact Sys.Inv.start hsized hidx hr hc hw

/-- The recoder calls `recode_xor` only. -/
def Event.UsesXor : Event → Prop
  | .recodeNone => False
  | _ => True

/-- No thread is in `recode_none`. -/
def Sys.XorOnly (s : Sys) : Prop := ∀ t pc, s.calls t ≠ some (.recodeNone pc)

theorem Sys.XorOnly.step {s s' : Sys} (h : s.XorOnly) {e : Event} (he : e.UsesXor)
    (hs : s.step e = some s') : s'.XorOnly := by
  intro t pc ht
  cases e with
  | recodeNone => exact he
  | write src max | recodeXor src max | read src max =>
    simp only [Sys.step, Sys.invoke] at hs
    split_ifs at hs
    obtain rfl := Option.some.inj hs
    simp only [Function.update_apply] at ht
    split_ifs at ht
    · exact absurd ht (by simp)
    · exact h t pc ht
  | step u =>
    simp only [Sys.step] at hs
    split at hs
    · exact absurd hs (by simp)
    · obtain rfl := Option.some.inj hs
      rw [calls_afterCall, Function.update_apply] at ht
      split_ifs at ht
      · split at ht <;> exact absurd ht (by simp)
      · exact h t pc ht
    · next pc' hu => exact h u pc' hu

/-- Without `recode_none` nothing leaks. -/
theorem Sys.XorOnly.nextLeak {s : Sys} (h : s.XorOnly) (leak : Stage → ℕ) (e : Event) :
    s.nextLeak leak e = leak := by
  cases e with
  | step t =>
    rw [Sys.nextLeak]
    split
    · next pc ht => exact absurd ht (h t pc)
    · rfl
  | write | recodeXor | recodeNone | read => rfl

/-- **Run lemma**: every state reached with `recode_xor` only satisfies the invariant, without a
leak. -/
theorem run_inv (h1 : 1 ≤ chunks) (h2 : chunks ≤ 0x40000)
    (hinit : cyclicBufferInit malloc chunks = .ok buf) {es : List Event} {s : Sys}
    (hes : ∀ e ∈ es, e.UsesXor) (hrun : Run.run Sys.step (Sys.start buf) es = some s) :
    s.XorOnly ∧ ∃ pos, s.Inv pos fun _ => 0 := by
  refine Run.run_invariant Event.UsesXor (fun s => s.XorOnly ∧ ∃ pos, s.Inv pos fun _ => 0) ?_ ?_
    hes hrun
  · exact ⟨fun t pc => by simp [Sys.start], _, start_inv h1 h2 hinit⟩
  · rintro s e s' he ⟨hx, pos, hi⟩ hs
    have hi' := hi.step hs
    rw [hx.nextLeak] at hi'
    exact ⟨hx.step he hs, _, hi'⟩

end Runs

end Cryptochan
