import Cryptochan.Buffer.Ledger
import Cryptochan.Buffer.Threads

/-!
# Cryptochan.Buffer.Stream — the buffer is one stream under every interleaving

A call is seen by the ledger through its phase and the number of bytes it has done
(`CallPc.phase`, `CallPc.done`).  `callStep_streams` is the one step lemma for the three calls,
`noneStep_streams` the one for `recode_none`.  Buffer.System makes them the invariant of the three
threads (`Sys.Inv`), and Buffer.Interleaved says what follows for the bytes (`cyclicBuffer_delivers`).
-/

namespace Cryptochan

open Circular CreditRing

/-! ### The XOR of two streams -/

/-- The bytes of `W` XORed with those of `M`, as far as both go. -/
def xorStream (W M : List UInt8) : List UInt8 := List.zipWith (· ^^^ ·) W M

section XorStream

variable {W M : List UInt8}

theorem length_xorStream (h : M.length ≤ W.length) : (xorStream W M).length = M.length := by
  simp [xorStream, h]

theorem xorStream_append_left (h : M.length ≤ W.length) (xs : List UInt8) :
    xorStream (W ++ xs) M = xorStream W M := by
  refine List.ext_getElem (by simp [xorStream]; omega) ?_
  intro i h1 h2
  simp only [xorStream, List.length_zipWith] at h2
  simp only [xorStream, List.getElem_zipWith]
  rw [List.getElem_append_left (by omega)]

theorem xorStream_snoc (h : M.length < W.length) (a : UInt8) :
    xorStream W (M ++ [a]) = xorStream W M ++ [W[M.length] ^^^ a] := by
  have hl : (xorStream W M).length = M.length := length_xorStream h.le
  refine List.ext_getElem (by simp [xorStream]; omega) ?_
  intro i h1 h2
  by_cases hi : i < M.length
  · rw [List.getElem_append_left (by omega)]
    simp only [xorStream, List.getElem_zipWith]
    rw [List.getElem_append_left hi]
  · obtain rfl : i = M.length := by simp at h2; omega
    rw [List.getElem_append_right (by omega)]
    simp [xorStream]

theorem xorStream_zeros {n : ℕ} (h : M.length + n ≤ W.length) :
    xorStream W (M ++ List.replicate n 0) = xorStream W M ++ (W.drop M.length).take n := by
  have hl : (xorStream W M).length = M.length := length_xorStream (by omega)
  refine List.ext_getElem (by simp [xorStream]; omega) ?_
  intro i h1 h2
  by_cases hi : i < M.length
  · rw [List.getElem_append_left (by omega)]
    simp only [xorStream, List.getElem_zipWith]
    rw [List.getElem_append_left hi]
  · rw [List.getElem_append_right (by omega)]
    simp only [xorStream, List.getElem_zipWith, List.getElem_take, List.getElem_drop]
    rw [List.getElem_append_right (by omega), List.getElem_replicate, UInt8.xor_zero]
    congr 1; simp; omega

theorem xorStream_mono {W' M' : List UInt8} (hW : W <+: W') (hM : M <+: M')
    (hle : M.length ≤ W.length) : xorStream W M <+: xorStream W' M' := by
  obtain ⟨ws, rfl⟩ := hW
  obtain ⟨ms, rfl⟩ := hM
  have e : W ++ ws = W.take M.length ++ (W.drop M.length ++ ws) := by
    rw [← List.append_assoc, List.take_append_drop]
  have e2 : xorStream W M = xorStream (W.take M.length) M := by
    conv_lhs => rw [← List.take_append_drop M.length W]
    exact xorStream_append_left (by simp [hle]) _
  refine ⟨xorStream (W.drop M.length ++ ws) ms, ?_⟩
  rw [e, e2]
  exact (List.zipWith_append (by simp [hle])).symm

end XorStream

theorem prefix_snoc {xs ys : List UInt8} (h : xs <+: ys) (hlt : xs.length < ys.length) :
    xs ++ [ys[xs.length]] <+: ys := by
  obtain ⟨zs, rfl⟩ := h
  cases zs with
  | nil => simp at hlt
  | cons z zs => exact ⟨zs, by simp⟩

/-! ### What the ledger sees of a call -/

def CallPc.phase : CallPc → Phase
  | .load _ => .idle
  | .copy size _ _ => .claim size
  | .storeIdx size _ => .claim size
  | .fetchAdd size => .moved size
  | .fetchSub size => .passed size

/-- The bytes done and not yet passed on. -/
def CallPc.done : CallPc → ℕ
  | .copy _ _ k => k
  | .storeIdx size _ => size
  | .fetchAdd size => size
  | _ => 0

/-- The next index was computed from the index the thread still owns. -/
def CallPc.Ok (buf : CyclicBuffer) (st : Stage) (arg : Option Region) : CallPc → Prop
  | .copy size nextIdx k =>
    nextIdx = (buf.idx st + size) % buf.totalSize ∧ k < size ∧ arg.isSome
  | .storeIdx size nextIdx => nextIdx = (buf.idx st + size) % buf.totalSize
  | _ => True

def NonePc.phase : NonePc → Phase
  | .load => .idle
  | .storeIdx size => .claim size
  | .fetchAdd size => .moved size
  | .storeZero size => .passed size

def NonePc.done : NonePc → ℕ
  | .storeIdx size => size
  | .fetchAdd size => size
  | _ => 0

def Cont.phase {π : Type} (f : π → Phase) : Cont π → Phase
  | .goto pc => f pc
  | .ret _ => .idle

def Cont.done {π : Type} (f : π → ℕ) : Cont π → ℕ
  | .goto pc => f pc
  | .ret _ => 0

/-- The positions after a step: `fetch_add` passes the bytes on. -/
def CallPc.advance (st : Stage) (pos : Stage → ℕ) : CallPc → Stage → ℕ
  | .fetchAdd size => Function.update pos st (pos st + size)
  | _ => pos

def NonePc.advance (pos : Stage → ℕ) : NonePc → Stage → ℕ
  | .fetchAdd size => Function.update pos .recode (pos .recode + size)
  | _ => pos

theorem CallPc.advance_of_ne {st t : Stage} (ht : t ≠ st) (pc : CallPc) {pos : Stage → ℕ} :
    pc.advance st pos t = pos t := by
  cases pc with
  | fetchAdd size => exact Function.update_of_ne ht _ _
  | load | copy | storeIdx | fetchSub => rfl

theorem CallPc.le_advance (pc : CallPc) (st t : Stage) {pos : Stage → ℕ} :
    pos t ≤ pc.advance st pos t := by
  cases pc with
  | fetchAdd size =>
    rw [CallPc.advance, Function.update_apply]
    split_ifs with h
    · exact h ▸ Nat.le_add_right _ _
    · exact Nat.le_refl _
  | load | copy | storeIdx | fetchSub => exact Nat.le_refl _

/-- What the plain store of `0` loses. -/
def NonePc.leak (buf : CyclicBuffer) (leak : Stage → ℕ) : NonePc → Stage → ℕ
  | .storeZero size => Function.update leak .recode (leak .recode + (buf.available .recode - size))
  | _ => leak

/-- The bytes, on the caller's side, that a step of a call works on. -/
def stepBytes (st : Stage) (buf : CyclicBuffer) (arg : Option Region) : CallPc → List UInt8
  | .load max => match arg with
    | none => if buf.available st = 0 then []
      else accepted buf st (min (buf.available st) max) none
    | some _ => []
  | .copy size _ k => match arg with
    | none => []
    | some r => [(moveByte st (buf.dataPtr (buf.byteOffset st size k)) (r k)).2]
  | _ => []

def noneBytes (buf : CyclicBuffer) : NonePc → List UInt8
  | .load => List.replicate (buf.available .recode) 0
  | _ => []

/-- A stream grows if the stage is the one that feeds it. -/
def grow (st st' : Stage) (xs ys : List UInt8) : List UInt8 := if st = st' then xs ++ ys else xs

theorem prefix_grow (st st' : Stage) (xs ys : List UInt8) : xs <+: grow st st' xs ys := by
  unfold grow
  split_ifs
  · exact List.prefix_append xs ys
  · exact List.prefix_refl xs

/-! ### One step -/

/-- `Piped` for the streams `W` of the bytes written and `M` of the mask bytes. -/
structure Streams (buf : CyclicBuffer) (ph : Stage → Phase) (dn pos leak : Stage → ℕ)
    (W M : List UInt8) : Prop where
  piped : Piped buf ph dn pos leak (xorStream W M) W
  le : M.length ≤ W.length

theorem copyFrom_phase (arg : Option Region) (size nextIdx k : ℕ) :
    (copyFrom arg size nextIdx k).phase = .claim size := by
  unfold copyFrom
  split_ifs <;> rfl

namespace Streams

variable {buf : CyclicBuffer} {ph : Stage → Phase} {dn pos leak : Stage → ℕ} {W M : List UInt8}

theorem length_masked (h : Streams buf ph dn pos leak W M) :
    M.length = pos .recode + dn .recode := by
  rw [← h.piped.recoded, length_xorStream h.le]

/-- Byte `k` of a claim, for all three stages. -/
theorem moveByte (h : Streams buf ph dn pos leak W M) {st : Stage} {n k : ℕ}
    (hi : ph st = .claim n) (hd : dn st = k) (hk : k < n) (a : UInt8) :
    Streams
      (buf.setData (Function.update buf.dataPtr (buf.byteOffset st n k)
        (Cryptochan.moveByte st (buf.dataPtr (buf.byteOffset st n k)) a).1))
      ph (Function.update dn st (k + 1)) pos leak
      (grow st .write W [(Cryptochan.moveByte st (buf.dataPtr (buf.byteOffset st n k)) a).2])
      (grow st .recode M [(Cryptochan.moveByte st (buf.dataPtr (buf.byteOffset st n k)) a).2]) := by
  cases st with
  | write =>
    have hp := h.piped.put hi hd hk a
    refine ⟨?_, by have := h.le; simp [grow]; omega⟩
    simpa [grow, Cryptochan.moveByte, xorStream_append_left h.le] using hp
  | recode =>
    obtain ⟨hlt, hcell, hp⟩ := h.piped.convert hi hd hk
    have hl := length_xorStream h.le
    refine ⟨?_, by simp [grow]; omega⟩
    have := hp (buf.dataPtr (buf.byteOffset .recode n k) ^^^ a)
    simp only [grow, Cryptochan.moveByte, if_true, if_false, reduceCtorEq]
    rw [xorStream_snoc (by omega)]
    simpa [hcell, hl] using this
  | read =>
    have e : buf.setData (Function.update buf.dataPtr (buf.byteOffset .read n k)
        (buf.dataPtr (buf.byteOffset .read n k))) = buf := by
      rw [Function.update_eq_self]; rfl
    simp only [grow, Cryptochan.moveByte, if_false, reduceCtorEq, e]
    exact ⟨⟨h.piped.balanced, by simpa using h.piped.written, by simpa using h.piped.recoded,
      h.piped.staged⟩, h.le⟩

/-- A call without a pointer has all its bytes done at once. -/
theorem skip (h : Streams buf ph dn pos leak W M) {st : Stage} {n : ℕ} (hi : ph st = .claim n)
    (hd : dn st = 0) :
    Streams buf ph (Function.update dn st n) pos leak (grow st .write W (accepted buf st n none))
      (grow st .recode M (accepted buf st n none)) := by
  cases st with
  | write =>
    have hp := h.piped.adopt hi hd
    refine ⟨?_, by have := h.le; simp [grow]; omega⟩
    simpa [grow, accepted, xorStream_append_left h.le] using hp
  | recode =>
    have hheld := h.piped.balanced.held_recode
    have hw := h.piped.written
    have hm := h.length_masked
    rw [hi, Phase.held_claim] at hheld
    have hp := h.piped.keep hi hd
    refine ⟨?_, by simp [grow, accepted]; omega⟩
    simp only [grow, accepted, if_true, if_false, reduceCtorEq]
    rw [xorStream_zeros (by omega)]
    rwa [length_xorStream h.le] at hp
  | read =>
    simp only [grow, if_false, reduceCtorEq]
    exact ⟨⟨h.piped.balanced, by simpa using h.piped.written, by simpa using h.piped.recoded,
      h.piped.staged⟩, h.le⟩

/-! #### The steps that only count -/

theorem claim (h : Streams buf ph dn pos leak W M) {st : Stage} {n : ℕ} (hi : ph st = .idle)
    (hn : n ≤ buf.available st) : Streams buf (Function.update ph st (.claim n)) dn pos leak W M :=
  ⟨h.piped.claim hi hn, h.le⟩

theorem move (h : Streams buf ph dn pos leak W M) {st : Stage} {n : ℕ} (hi : ph st = .claim n) :
    Streams (buf.setIdx st ((buf.idx st + n) % buf.totalSize)) (Function.update ph st (.moved n)) dn
      pos leak W M := ⟨h.piped.move hi, h.le⟩

theorem pass (h : Streams buf ph dn pos leak W M) {st : Stage} {n : ℕ} (hi : ph st = .moved n)
    (hd : dn st = n) :
    Streams (buf.fetchAdd st.next n) (Function.update ph st (.passed n)) (Function.update dn st 0)
      (Function.update pos st (pos st + n)) leak W M := ⟨h.piped.pass hi hd, h.le⟩

theorem release (h : Streams buf ph dn pos leak W M) {st : Stage} {n : ℕ} (hi : ph st = .passed n) :
    Streams (buf.fetchSub st n) (Function.update ph st .idle) dn pos leak W M :=
  ⟨h.piped.release hi, h.le⟩

theorem forget (h : Streams buf ph dn pos leak W M) {n : ℕ} (hi : ph .recode = .passed n) :
    Streams (buf.setAvailable .recode 0) (Function.update ph .recode .idle) dn pos
      (Function.update leak .recode (leak .recode + (buf.available .recode - n))) W M :=
  ⟨h.piped.forget hi, h.le⟩

end Streams

/-! ### One step of a call -/

/-- What a step must leave for the other threads. -/
structure Frame (buf buf' : CyclicBuffer) (st : Stage) : Prop where
  size : buf'.totalSize = buf.totalSize
  idx : ∀ t ≠ st, buf'.idx t = buf.idx t

/-- A call of `st` is at `pc` with the ledger's view of it. -/
structure CallAt (buf : CyclicBuffer) (ph : Stage → Phase) (dn : Stage → ℕ) (st : Stage)
    (arg : Option Region) (pc : CallPc) : Prop where
  phase : ph st = pc.phase
  done : dn st = pc.done
  ok : pc.Ok buf st arg

/-- What a step has reached. -/
def Cont.Ok (buf : CyclicBuffer) (st : Stage) (arg : Option Region) : Cont CallPc → Prop
  | .goto pc => pc.Ok buf st arg
  | .ret _ => True

theorem CallPc.Ok.frame {buf buf' : CyclicBuffer} {st t : Stage} (hf : Frame buf buf' st)
    (ht : t ≠ st) {arg : Option Region} {pc : CallPc} (h : pc.Ok buf t arg) : pc.Ok buf' t arg := by
  cases pc with
  | copy size nextIdx k => simpa only [CallPc.Ok, hf.size, hf.idx t ht] using h
  | storeIdx size nextIdx => simpa only [CallPc.Ok, hf.size, hf.idx t ht] using h
  | load | fetchAdd | fetchSub => exact trivial

theorem callStep_frame (st : Stage) (buf : CyclicBuffer) (arg : Option Region) (pc : CallPc) :
    Frame buf (callStep st buf arg pc).1 st := by
  cases pc with
  | load max => unfold callStep; split_ifs <;> exact ⟨rfl, fun _ _ => rfl⟩
  | copy size nextIdx k =>
    cases arg with
    | none => exact ⟨rfl, fun _ _ => rfl⟩
    | some r => exact ⟨rfl, fun t _ => by simp [callStep]⟩
  | storeIdx size nextIdx => exact ⟨by simp [callStep], fun t ht => by simp [callStep, ht]⟩
  | fetchAdd size => exact ⟨by simp [callStep], fun t _ => by simp [callStep]⟩
  | fetchSub size => exact ⟨by simp [callStep], fun t _ => by simp [callStep]⟩

theorem noneStep_frame (buf : CyclicBuffer) (pc : NonePc) :
    Frame buf (noneStep buf pc).1 .recode := by
  cases pc with
  | load => exact ⟨rfl, fun _ _ => rfl⟩
  | storeIdx size => exact ⟨by simp [noneStep], fun t ht => by simp [noneStep, ht]⟩
  | fetchAdd size => exact ⟨by simp [noneStep], fun t _ => by simp [noneStep]⟩
  | storeZero size => exact ⟨by simp [noneStep], fun t _ => by simp [noneStep]⟩

/-- Where the copy loop goes next, `k` bytes being done. -/
theorem copyFrom_spec {buf : CyclicBuffer} {st : Stage} {arg arg' : Option Region}
    {size nextIdx k : ℕ} (ha : arg'.isSome = arg.isSome)
    (hn : nextIdx = (buf.idx st + size) % buf.totalSize) (hk : k ≤ size) :
    (copyFrom arg size nextIdx k).phase = .claim size ∧
      (copyFrom arg size nextIdx k).done = (if arg.isSome then k else size) ∧
      (copyFrom arg size nextIdx k).Ok buf st arg' := by
  unfold copyFrom
  split_ifs with h1 h2 h2
  · exact ⟨rfl, rfl, hn, h1.2, ha.trans h1.1⟩
  · exact absurd h1.1 h2
  · refine ⟨rfl, ?_, hn⟩
    have : ¬ k < size := fun hlt => h1 ⟨h2, hlt⟩
    exact (by omega : size = k)
  · exact ⟨rfl, rfl, hn⟩

section CallStep

variable {buf : CyclicBuffer} {ph : Stage → Phase} {dn pos leak : Stage → ℕ} {W M : List UInt8}
  {st : Stage} {arg : Option Region}

theorem grow_nil (st st' : Stage) (xs : List UInt8) : grow st st' xs [] = xs := by
  unfold grow
  split_ifs <;> simp

/-- The load: the call claims what it saw, or returns. -/
theorem load_streams (h : Streams buf ph dn pos leak W M) {max : ℕ}
    (hc : CallAt buf ph dn st arg (.load max)) (hne : buf.available st ≠ 0) :
    let pc := copyFrom arg (min (buf.available st) max)
      (buf.split st (min (buf.available st) max)).next 0
    Streams buf (Function.update ph st pc.phase) (Function.update dn st pc.done) pos leak
        (grow st .write W (stepBytes st buf arg (.load max)))
        (grow st .recode M (stepBytes st buf arg (.load max))) ∧
      pc.Ok buf st arg := by
  have hi : ph st = .idle := hc.phase
  have hd : dn st = 0 := hc.done
  have hle : min (buf.available st) max ≤ buf.available st := Nat.min_le_left _ _
  have hcl := h.claim hi hle
  have hn : (buf.split st (min (buf.available st) max)).next = _ :=
    h.piped.balanced.split_next (hle.trans (h.piped.balanced.available_le_of_idle hi))
  obtain ⟨e1, e2, hok⟩ := copyFrom_spec (rfl : arg.isSome = arg.isSome) hn (Nat.zero_le _)
  refine ⟨?_, hok⟩
  rw [e1, e2]
  cases arg with
  | none =>
    have := hcl.skip (Function.update_self ..) hd
    simpa [stepBytes, hne] using this
  | some r =>
    simp only [stepBytes, grow_nil, Option.isSome_some, if_true]
    rwa [← hd, Function.update_eq_self]

/-- **One step of `read`, `write` or `recode_xor`** keeps the ledger and the streams. -/
theorem callStep_streams (h : Streams buf ph dn pos leak W M) {pc : CallPc}
    (hc : CallAt buf ph dn st arg pc) :
    Streams (callStep st buf arg pc).1
        (Function.update ph st ((callStep st buf arg pc).2.2.phase CallPc.phase))
        (Function.update dn st ((callStep st buf arg pc).2.2.done CallPc.done))
        (pc.advance st pos) leak (grow st .write W (stepBytes st buf arg pc))
        (grow st .recode M (stepBytes st buf arg pc)) ∧
      (callStep st buf arg pc).2.2.Ok (callStep st buf arg pc).1 st
        (callStep st buf arg pc).2.1 := by
  have hphase := hc.phase
  have hdone := hc.done
  cases pc with
  | load max =>
    by_cases hz : buf.available st = 0
    · have hb : stepBytes st buf arg (.load max) = [] := by cases arg <;> simp [stepBytes, hz]
      have e1 : Function.update ph st Phase.idle = ph := by
        rw [← show ph st = Phase.idle from hphase, Function.update_eq_self]
      have e2 : Function.update dn st 0 = dn := by
        rw [← show dn st = 0 from hdone, Function.update_eq_self]
      simp only [callStep, if_pos hz, hb, grow_nil, Cont.phase, Cont.done, Cont.Ok, e1, e2]
      exact ⟨h, trivial⟩
    · simp only [callStep, if_neg hz]
      exact load_streams h hc hz
  | copy size nextIdx k =>
    obtain ⟨hn, hk, hsome⟩ := hc.ok
    cases arg with
    | none => exact absurd hsome (by simp)
    | some r =>
      have hm := h.moveByte hphase hdone hk (r k)
      have e : Function.update ph st (Phase.claim size) = ph := by
        rw [← show ph st = Phase.claim size from hphase, Function.update_eq_self]
      have hn' : nextIdx = ((callStep st buf (some r) (.copy size nextIdx k)).1.idx st + size) %
          (callStep st buf (some r) (.copy size nextIdx k)).1.totalSize := by
        simpa [callStep] using hn
      have ha : (callStep st buf (some r) (.copy size nextIdx k)).2.1.isSome = (some r).isSome := rfl
      obtain ⟨e1, e2, hok⟩ := copyFrom_spec ha hn' hk
      refine ⟨?_, hok⟩
      simp only [callStep, Cont.phase, Cont.done, e1, e2, e, Option.isSome_some, if_true]
      exact hm
  | storeIdx size nextIdx =>
    have hn : nextIdx = (buf.idx st + size) % buf.totalSize := hc.ok
    have hm := h.move hphase
    have e : Function.update dn st size = dn := by
      rw [← show dn st = size from hdone, Function.update_eq_self]
    refine ⟨?_, trivial⟩
    simp only [callStep, Cont.phase, Cont.done, CallPc.phase, CallPc.done, stepBytes, grow_nil,
      CallPc.advance, e, hn]
    exact hm
  | fetchAdd size =>
    refine ⟨?_, trivial⟩
    simp only [callStep, Cont.phase, Cont.done, CallPc.phase, CallPc.done, stepBytes, grow_nil,
      CallPc.advance]
    exact h.pass hphase hdone
  | fetchSub size =>
    have e : Function.update dn st 0 = dn := by
      rw [← show dn st = 0 from hdone, Function.update_eq_self]
    refine ⟨?_, trivial⟩
    simp only [callStep, Cont.phase, Cont.done, stepBytes, grow_nil, CallPc.advance, e]
    exact h.release hphase

/-- **One step of `recode_none`.** -/
theorem noneStep_streams (h : Streams buf ph dn pos leak W M) (pc : NonePc)
    (hphase : ph .recode = pc.phase) (hdone : dn .recode = pc.done) :
    Streams (noneStep buf pc).1
      (Function.update ph .recode ((noneStep buf pc).2.phase NonePc.phase))
      (Function.update dn .recode ((noneStep buf pc).2.done NonePc.done))
      (pc.advance pos) (pc.leak buf leak) W (M ++ noneBytes buf pc) := by
  cases pc with
  | load =>
    have hcl := h.claim hphase le_rfl
    exact hcl.skip (Function.update_self ..) hdone
  | storeIdx size =>
    have hs := h.piped.balanced.small .recode
    rw [hphase] at hs
    have hadd : buf.idx .recode + size < 2 ^ 32 := h.piped.balanced.idx_add_lt .recode hs
    have e : Function.update dn .recode size = dn := by
      rw [← show dn .recode = size from hdone, Function.update_eq_self]
    have hm := h.move hphase
    simp only [noneStep, Cont.phase, Cont.done, NonePc.phase, NonePc.done, NonePc.advance,
      NonePc.leak, noneBytes, List.append_nil, e]
    rwa [u32Add_eq hadd]
  | fetchAdd size =>
    simp only [noneStep, Cont.phase, Cont.done, NonePc.phase, NonePc.done, NonePc.advance,
      NonePc.leak, noneBytes, List.append_nil]
    exact h.pass hphase hdone
  | storeZero size =>
    have e : Function.update dn .recode 0 = dn := by
      rw [← show dn .recode = 0 from hdone, Function.update_eq_self]
    simp only [noneStep, Cont.phase, Cont.done, NonePc.advance, NonePc.leak, noneBytes,
      List.append_nil, e]
    exact h.forget hphase

end CallStep

end Cryptochan
