import Cryptochan.Buffer.System
import Mathlib.Data.Set.Defs

/-!
# Cryptochan.Buffer.Interleaved — writer, recoder and reader under every interleaving

What the invariant says about the runs of a writer, a recoder that uses `recode_xor`, and a reader:

* `cyclicBuffer_safe`: the calls work on disjoint cells, no counter or index leaves its range, and
  between calls the counters add up (`Sys.Safe`);
* `cyclicBuffer_delivers`: the bytes delivered are a prefix of what was written XOR the masks;
* `cyclicBuffer_accepts`: the bytes written and the mask bytes are as many as the calls returned.

For the second result `Sys.Delivers` follows the bytes of the read in progress.
-/

namespace Cryptochan

open Circular CreditRing

/-! ### Counters, indices and cells -/

/-- The offsets in `data_ptr` that the call of `t` is copying or XORing. -/
def Sys.range (s : Sys) (t : Stage) : Set ℕ :=
  {off | ∃ arg size nextIdx k, s.calls t = some (.call arg (.copy size nextIdx k)) ∧
    ∃ j < size, off = s.buf.byteOffset t size j}

/-- No access out of place, no arithmetic out of range. -/
structure Sys.Safe (s : Sys) : Prop where
  inside : ∀ t, ∀ off ∈ s.range t, off < s.buf.totalSize
  disjoint : ∀ t u, t ≠ u → ∀ off ∈ s.range t, off ∉ s.range u
  sub_le : ∀ t arg size, s.calls t = some (.call arg (.fetchSub size)) → size ≤ s.buf.available t
  add_lt : ∀ t arg size, s.calls t = some (.call arg (.fetchAdd size)) →
    s.buf.available t.next + size < 2 ^ 32
  idx_add_lt : ∀ t arg max, s.calls t = some (.call arg (.load max)) →
    s.buf.idx t + min (s.buf.available t) max < 2 ^ 32
  idx_lt : ∀ t, s.buf.idx t < s.buf.totalSize
  sum : s.Quiescent →
    s.buf.availableToRead + s.buf.availableToRecode + s.buf.availableToWrite = s.buf.totalSize
  ring : s.Quiescent → ∀ t, s.buf.idx t.prev = (s.buf.idx t + s.buf.available t) % s.buf.totalSize

namespace Sys.Inv

variable {s : Sys} {pos leak : Stage → ℕ}

theorem phase_call (h : s.Inv pos leak) {t : Stage} {arg : Option Region} {pc : CallPc}
    (ht : s.calls t = some (.call arg pc)) : s.phase t = pc.phase := (h.callAt ht).phase

theorem safe (h : s.Inv pos leak) (hl : leak .recode = 0) : s.Safe := by
  have hb := h.streams.piped.balanced
  refine ⟨?_, ?_, ?_, ?_, ?_, hb.idx_lt, fun hq => (h.represents hq hl).sum_available,
    fun hq => (h.represents hq hl).idx_prev⟩
  · rintro t off ⟨arg, size, nextIdx, k, ht, j, hj, rfl⟩
    rw [hb.byteOffset_eq (h.phase_call ht) hj]
    exact Nat.mod_lt _ hb.sized.pos
  · intro t u htu
    rintro off ⟨arg, size, nextIdx, k, ht, j, hj, rfl⟩ ⟨arg', size', nextIdx', k', hu, j', hj', e⟩
    exact hb.claims_disjoint htu (h.phase_call ht) (h.phase_call hu) hj hj' e
  · intro t arg size ht
    have hle := hb.ledger.owed_le t
    have e : s.phase t = .passed size := h.phase_call ht
    simpa [CyclicBuffer.ring, e] using hle
  · intro t arg size ht
    have hlt := hb.fetchAdd_lt t
    rwa [h.phase_call ht] at hlt
  · intro t arg max ht
    have hle := hb.available_le_of_idle (h.phase_call ht)
    exact hb.idx_add_lt t ((Nat.min_le_left _ _).trans hle)

end Sys.Inv

/-- **Counter safety and disjoint access**: whatever the interleaving of a writer, a recoder and a
reader, with or without pointers. -/
theorem cyclicBuffer_safe (malloc : ℕ → Option Region) (chunks : ℤ) (buf : CyclicBuffer)
    (h1 : 1 ≤ chunks) (h2 : chunks ≤ 0x40000) (hinit : cyclicBufferInit malloc chunks = .ok buf)
    (es : List Event) (s : Sys) (hes : ∀ e ∈ es, e.UsesXor)
    (hrun : Run.run Sys.step (Sys.start buf) es = some s) : s.Safe := by
  obtain ⟨-, pos, hi⟩ := run_inv h1 h2 hinit hes hrun
  exact hi.safe rfl

/-- Two bytes on their way through all three threads: the recoder starts before the writer's
`fetch_sub`, the reader before the recoder's. -/
def twoBytes : List Event :=
  .write (some fun _ => 7) 2 :: List.replicate 5 (.step .write) ++
  .recodeXor (some fun _ => 3) 2 :: List.replicate 5 (.step .recode) ++
  .read (some fun _ => 0) 2 :: List.replicate 6 (.step .read) ++ [.step .write, .step .recode]

theorem twoBytes_run : ∃ s, Run.run Sys.step (Sys.start oneChunk) twoBytes = some s ∧
    s.history.delivered = [4, 4] := by
  have h : (Run.run Sys.step (Sys.start oneChunk) twoBytes).map (·.history.delivered) =
      some [4, 4] := by decide +kernel
  exact Option.map_eq_some_iff.mp h

theorem cyclicBuffer_safe_twoBytes :
    ∃ s, Run.run Sys.step (Sys.start oneChunk) twoBytes = some s ∧ s.Safe := by
  obtain ⟨s, hs, -⟩ := twoBytes_run
  exact ⟨s, hs, cyclicBuffer_safe (fun _ => some fun _ => 0) 1 oneChunk (by decide) (by decide)
    oneChunk_init twoBytes s (by simp [twoBytes, Event.UsesXor]) hs⟩

/-! ### The bytes delivered -/

/-- The bytes of a read that are at `dest` already. -/
def CallPc.got : CallPc → ℕ
  | .load _ => 0
  | .copy _ _ k => k
  | .storeIdx size _ | .fetchAdd size | .fetchSub size => size

def Cont.got : Cont CallPc → ℕ
  | .goto pc => pc.got
  | .ret size => size

/-- The bytes delivered, those of a read in progress included. -/
def Sys.delivering (s : Sys) : List UInt8 :=
  s.history.delivered ++ match s.calls .read with
    | some (.call (some r) pc) => bytes r pc.got
    | _ => []

/-- The reads so far have delivered the beginning of the stream. -/
structure Sys.Delivers (s : Sys) (pos : Stage → ℕ) : Prop where
  copies : ∀ arg pc, s.calls .read = some (.call arg pc) → arg.isSome
  beginning : s.delivering <+: xorStream (s.stream .write) (s.stream .recode)
  length : s.delivering.length = pos .read + s.done .read

/-- All pointers are given, and the recoder calls `recode_xor` only. -/
def Event.Copies : Event → Prop
  | .write src _ => src.isSome
  | .recodeXor mask _ => mask.isSome
  | .read dest _ => dest.isSome
  | .recodeNone => False
  | .step _ => True

theorem Event.Copies.usesXor {e : Event} (h : e.Copies) : e.UsesXor := by
  cases e with
  | recodeNone => exact h
  | write | recodeXor | read | step => exact trivial

/-- What a step of a read adds to the bytes at `dest`. -/
def readBytes (buf : CyclicBuffer) : CallPc → List UInt8
  | .copy size _ k => [buf.dataPtr (buf.byteOffset .read size k)]
  | _ => []

theorem got_copyFrom {r : Region} {size nextIdx k : ℕ} (hk : k ≤ size) :
    (copyFrom (some r) size nextIdx k).got = k := by
  unfold copyFrom
  split_ifs with h
  · rfl
  · have : ¬ k < size := fun hlt => h ⟨rfl, hlt⟩
    exact (by omega : size = k)

theorem done_copyFrom {r : Region} {size nextIdx k : ℕ} (hk : k ≤ size) :
    (copyFrom (some r) size nextIdx k).done = k := by
  unfold copyFrom
  split_ifs with h
  · rfl
  · have : ¬ k < size := fun hlt => h ⟨rfl, hlt⟩
    exact (by omega : size = k)

theorem callStep_read {buf : CyclicBuffer} {r : Region} {pc : CallPc}
    (hok : pc.Ok buf .read (some r)) :
    ∃ r', (callStep .read buf (some r) pc).2.1 = some r' ∧
      bytes r' (callStep .read buf (some r) pc).2.2.got = bytes r pc.got ++ readBytes buf pc := by
  cases pc with
  | load max =>
    by_cases hz : buf.available .read = 0
    · exact ⟨r, by simp [callStep, hz], by simp [callStep, hz, Cont.got, CallPc.got, readBytes]⟩
    · refine ⟨r, by simp [callStep, hz], ?_⟩
      simp only [callStep, if_neg hz, Cont.got, got_copyFrom (Nat.zero_le _)]
      rfl
  | copy size nextIdx k =>
    refine ⟨_, rfl, ?_⟩
    simp only [callStep, Cont.got, got_copyFrom hok.2.1, bytes_update]
    rfl
  | storeIdx size nextIdx | fetchAdd size | fetchSub size =>
    exact ⟨r, rfl, by simp [callStep, Cont.got, CallPc.got, readBytes]⟩

namespace Sys

variable {s s' : Sys} {pos : Stage → ℕ}

theorem delivering_afterCall_read (b : CyclicBuffer) (r : Region) (c : Cont CallPc) :
    (s.afterCall .read (b, some r, c)).delivering = s.history.delivered ++ bytes r c.got := by
  cases c with
  | goto pc => cases pc <;> simp [delivering, afterCall, Cont.got, History.copied]
  | ret n => simp [delivering, afterCall, Cont.got, History.returned]

theorem delivering_afterCall_of_ne {t : Stage} (ht : t ≠ .read)
    (r : CyclicBuffer × Option Region × Cont CallPc) : (s.afterCall t r).delivering = s.delivering := by
  have hc : (s.afterCall t r).calls .read = s.calls .read := by
    rw [calls_afterCall, Function.update_of_ne ht.symm]
  have hd : (s.afterCall t r).history.delivered = s.history.delivered := by
    obtain ⟨b, arg, c⟩ := r
    cases c with
    | goto pc => cases pc <;> cases t <;> rfl
    | ret n => cases t <;> first | rfl | exact absurd rfl ht
  rw [delivering, delivering, hc, hd]

namespace Delivers

/-- A step of the writer or of the recoder only makes the stream longer. -/
theorem other (h : s.Delivers pos) {leak : Stage → ℕ} (hi : s.Inv pos leak) {t : Stage}
    (htr : t ≠ .read) {arg : Option Region} {pc : CallPc} (ht : s.calls t = some (.call arg pc)) :
    (s.afterCall t (callStep t s.buf arg pc)).Delivers (pc.advance t pos) := by
  refine ⟨?_, ?_, ?_⟩
  · intro arg' pc' hu
    rw [calls_afterCall, Function.update_of_ne htr.symm] at hu
    exact h.copies _ _ hu
  · rw [delivering_afterCall_of_ne htr, stream_afterCall ht (hi.ok _ _ _ ht) (by simp),
      stream_afterCall ht (hi.ok _ _ _ ht) (by simp)]
    exact h.beginning.trans
      (xorStream_mono (prefix_grow ..) (prefix_grow ..) hi.streams.le)
  · rw [delivering_afterCall_of_ne htr, done_afterCall, Function.update_of_ne htr.symm, h.length]
    congr 1
    cases pc with
    | fetchAdd size => exact (Function.update_of_ne htr.symm _ _).symm
    | load | copy | storeIdx | fetchSub => rfl

/-- A step of the reader: the byte it copies is the next one of the stream. -/
theorem reader (h : s.Delivers pos) {leak : Stage → ℕ} (hi : s.Inv pos leak) {arg : Option Region}
    {pc : CallPc} (ht : s.calls .read = some (.call arg pc)) :
    (s.afterCall .read (callStep .read s.buf arg pc)).Delivers (pc.advance .read pos) := by
  obtain ⟨r, rfl⟩ := Option.isSome_iff_exists.mp (h.copies _ _ ht)
  have hok := hi.ok _ _ _ ht
  obtain ⟨r', hr', hgot⟩ := callStep_read hok
  have hD : s.delivering = s.history.delivered ++ bytes r pc.got := by
    rw [delivering, ht]
  have hD' : (s.afterCall .read (callStep .read s.buf (some r) pc)).delivering =
      s.delivering ++ readBytes s.buf pc := by
    have e : callStep .read s.buf (some r) pc = ((callStep .read s.buf (some r) pc).1, some r',
        (callStep .read s.buf (some r) pc).2.2) := Prod.ext rfl (Prod.ext hr' rfl)
    rw [e, delivering_afterCall_read, hgot, hD, List.append_assoc]
  have hdone : s.done .read = pc.done := (hi.callAt ht).done
  have hlen := h.length
  rw [hdone] at hlen
  refine ⟨?_, ?_, ?_⟩
  · intro arg' pc' hu
    rw [calls_afterCall, Function.update_self] at hu
    split at hu
    · obtain ⟨rfl, rfl⟩ := Op.call.inj (Option.some.inj hu)
      rw [hr']
      rfl
    · exact absurd hu (by simp)
  · rw [hD', stream_afterCall ht hok (by simp), stream_afterCall ht hok (by simp)]
    simp only [grow, reduceCtorEq, if_false]
    cases pc with
    | copy size nextIdx k =>
      obtain ⟨hlt, hcell⟩ := hi.streams.piped.get (hi.phase_call ht) hok.2.1
      have hk : pos .read + k = s.delivering.length := hlen.symm
      simp only [readBytes, hcell, hk]
      exact prefix_snoc h.beginning (hk ▸ hlt)
    | load | storeIdx | fetchAdd | fetchSub => simpa [readBytes] using h.beginning
  · rw [hD', List.length_append, hlen, done_afterCall, Function.update_self]
    cases pc with
    | load max =>
      by_cases hz : s.buf.available .read = 0
      · simp [callStep, hz, readBytes, CallPc.advance, Cont.done, CallPc.done]
      · simp only [callStep, if_neg hz, Cont.done, done_copyFrom (Nat.zero_le _)]
        rfl
    | copy size nextIdx k =>
      simp only [callStep, Cont.done, done_copyFrom hok.2.1]
      rfl
    | storeIdx size nextIdx => rfl
    | fetchAdd size => simp [callStep, CallPc.advance, Cont.done, CallPc.done, readBytes]
    | fetchSub size => rfl

/-- A new call has delivered nothing yet. -/
theorem invoke (h : s.Delivers pos) {t : Stage} {arg : Option Region} {max : ℕ}
    (ha : arg.isSome) (hs : s.invoke t (.call arg (.load max)) = some s') : s'.Delivers pos := by
  have hst := stream_invoke (by cases arg <;> rfl) hs
  unfold Sys.invoke at hs
  split_ifs at hs with hc
  obtain rfl := Option.some.inj hs
  rw [Option.isNone_iff_eq_none] at hc
  have hd : ({ s with calls := Function.update s.calls t (some (.call arg (.load max))) } :
      Sys).delivering = s.delivering := by
    by_cases htr : t = .read
    · subst htr
      cases arg <;> simp [Sys.delivering, hc, CallPc.got]
    · simp [Sys.delivering, Ne.symm htr]
  refine ⟨?_, ?_, ?_⟩
  · intro arg' pc' hu
    by_cases htr : t = .read
    · subst htr
      simp only [Function.update_self, Option.some.injEq, Op.call.injEq] at hu
      exact hu.1 ▸ ha
    · exact h.copies arg' pc' ((Function.update_of_ne (Ne.symm htr) _ _).symm.trans hu)
  · rw [hd, hst]
    exact h.beginning
  · rw [hd, done_invoke hc rfl]
    exact h.length

theorem step (h : s.Delivers pos) {leak : Stage → ℕ} (hi : s.Inv pos leak) (hx : s.XorOnly)
    {e : Event} (he : e.Copies) (hs : s.step e = some s') : s'.Delivers (s.nextPos pos e) := by
  cases e with
  | recodeNone => exact absurd he id
  | write src max | recodeXor src max | read src max => exact h.invoke he hs
  | step t =>
    rw [Sys.step] at hs
    rw [Sys.nextPos]
    split at hs
    · exact absurd hs (by simp)
    · next arg pc ht =>
      obtain rfl := Option.some.inj hs
      simp only [ht]
      by_cases htr : t = .read
      · subst htr
        exact h.reader hi ht
      · exact h.other hi htr ht
    · next pc ht => exact absurd ht (hx t pc)

end Delivers

namespace Inv

variable {leak : Stage → ℕ}

/-- The bytes done are part of the claim. -/
theorem done_le_held (h : s.Inv pos leak) (t : Stage) : s.done t ≤ (s.phase t).held := by
  have hok := h.ok t
  rw [Sys.done, Sys.phase]
  cases hc : s.calls t with
  | none => exact Nat.le_refl 0
  | some op =>
    cases op with
    | call arg pc =>
      cases pc with
      | copy size nextIdx k => exact (hok _ _ hc).2.1.le
      | load | storeIdx | fetchAdd | fetchSub => exact Nat.le_refl _
    | recodeNone pc => cases pc <;> exact Nat.le_refl _

/-- The streams of the completed copies follow each other. -/
theorem lengths_le (h : s.Inv pos leak) :
    pos .read + s.done .read ≤ s.history.masked.length ∧
      s.history.masked.length ≤ s.history.written.length := by
  have hw := h.streams.piped.written
  have hm := h.streams.length_masked
  have g2 := h.streams.piped.balanced.held_recode
  have g3 := h.streams.piped.balanced.held_read
  have d2 := h.done_le_held .recode
  have d3 := h.done_le_held .read
  have p1 := s.length_pending_le .write
  have p2 := s.length_pending_le .recode
  rw [Sys.stream, List.length_append] at hw hm
  simp only [History.stream] at hw hm
  omega

end Inv

end Sys

/-- **Run lemma** for calls with pointers. -/
theorem run_delivers {malloc : ℕ → Option Region} {chunks : ℤ} {buf : CyclicBuffer}
    (h1 : 1 ≤ chunks) (h2 : chunks ≤ 0x40000) (hinit : cyclicBufferInit malloc chunks = .ok buf)
    {es : List Event} {s : Sys} (hes : ∀ e ∈ es, e.Copies)
    (hrun : Run.run Sys.step (Sys.start buf) es = some s) :
    ∃ pos, s.Inv pos (fun _ => 0) ∧ s.Delivers pos := by
  have key : s.XorOnly ∧ ∃ pos, s.Inv pos (fun _ => 0) ∧ s.Delivers pos := by
    refine Run.run_invariant Event.Copies
      (fun s => s.XorOnly ∧ ∃ pos, s.Inv pos (fun _ => 0) ∧ s.Delivers pos) ?_ ?_ hes hrun
    · exact ⟨fun t pc => by simp [Sys.start], _, start_inv h1 h2 hinit,
        ⟨fun _ _ ht => absurd ht (by simp [Sys.start]), List.nil_prefix, rfl⟩⟩
    · rintro s e s' he ⟨hx, pos, hi, hd⟩ hs
      have hi' := hi.step hs
      rw [hx.nextLeak] at hi'
      exact ⟨hx.step he.usesXor hs, _, hi', hd.step hi hx he hs⟩
  exact key.2

/-- **The buffer is one stream**: the bytes delivered by the reads that returned are a prefix of
the bytes written XOR the mask bytes, no mask byte is used before its byte is written, and between
calls every byte not yet delivered is in the buffer. -/
theorem cyclicBuffer_delivers (malloc : ℕ → Option Region) (chunks : ℤ) (buf : CyclicBuffer)
    (h1 : 1 ≤ chunks) (h2 : chunks ≤ 0x40000) (hinit : cyclicBufferInit malloc chunks = .ok buf)
    (es : List Event) (s : Sys) (hes : ∀ e ∈ es, e.Copies)
    (hrun : Run.run Sys.step (Sys.start buf) es = some s) :
    s.history.delivered <+: xorStream s.history.written s.history.masked ∧
    s.history.masked.length ≤ s.history.written.length ∧
    (s.Quiescent →
      s.history.delivered.length + s.buf.availableToRead = s.history.masked.length ∧
      s.history.masked.length + s.buf.availableToRecode = s.history.written.length) := by
  obtain ⟨pos, hi, hd⟩ := run_delivers h1 h2 hinit hes hrun
  obtain ⟨hle1, hle2⟩ := hi.lengths_le
  have hpre : s.history.delivered <+: s.delivering := List.prefix_append _ _
  have hlen := hd.length
  refine ⟨?_, hle2, ?_⟩
  · have hX : xorStream s.history.written s.history.masked <+:
        xorStream (s.stream .write) (s.stream .recode) :=
      xorStream_mono (List.prefix_append _ _) (List.prefix_append _ _) hle2
    refine List.prefix_of_prefix_length_le (hpre.trans hd.beginning) hX ?_
    rw [length_xorStream hle2]
    have := hpre.length_le
    omega
  · intro hq
    obtain ⟨ew, em, -⟩ := hi.lengths hq
    have hr : s.delivering = s.history.delivered := by
      rw [Sys.delivering, hq]
      exact List.append_nil _
    have h2 : s.buf.availableToRecode + _ + 0 = _ := hi.streams.piped.balanced.credit_recode
    have h3 : s.buf.availableToRead + _ = _ := hi.streams.piped.balanced.credit_read
    rw [Sys.Inv.phase_of_none (hq _), Phase.owed_idle] at h2 h3
    rw [hr, Sys.Inv.done_of_none (hq _)] at hlen
    omega

theorem cyclicBuffer_delivers_twoBytes :
    ∃ s, Run.run Sys.step (Sys.start oneChunk) twoBytes = some s ∧ s.history.delivered = [4, 4] ∧
      s.history.delivered <+: xorStream s.history.written s.history.masked := by
  obtain ⟨s, hs, hd⟩ := twoBytes_run
  exact ⟨s, hs, hd, (cyclicBuffer_delivers (fun _ => some fun _ => 0) 1 oneChunk (by decide)
    (by decide) oneChunk_init twoBytes s (by simp [twoBytes, Event.Copies]) hs).1⟩

/-! ### The bytes accepted -/

/-- The bytes that a call has accepted and not yet returned. -/
def CallPc.unreturned : CallPc → ℕ
  | .load _ | .copy _ _ _ => 0
  | .storeIdx size _ | .fetchAdd size | .fetchSub size => size

def NonePc.unreturned : NonePc → ℕ
  | .load => 0
  | .storeIdx size | .fetchAdd size | .storeZero size => size

def Op.unreturned : Op → ℕ
  | .call _ pc => pc.unreturned
  | .recodeNone pc => pc.unreturned

/-- The bytes accepted by the step that leads here. -/
def CallPc.accepting : CallPc → ℕ
  | .storeIdx size _ => size
  | _ => 0

def NonePc.accepting : NonePc → ℕ
  | .storeIdx size => size
  | _ => 0

theorem length_accepted (buf : CyclicBuffer) (st : Stage) (size : ℕ) (arg : Option Region) :
    (accepted buf st size arg).length = size := by
  cases arg with
  | some r => exact length_bytes r size
  | none => cases st <;> simp [accepted]

theorem accepting_copyFrom (arg : Option Region) (size nextIdx k : ℕ) :
    (copyFrom arg size nextIdx k).accepting = (copyFrom arg size nextIdx k).unreturned := by
  unfold copyFrom
  split_ifs <;> rfl

/-- A call returns as many bytes as it accepts. -/
theorem callStep_accepts (st : Stage) (buf : CyclicBuffer) (arg : Option Region) (pc : CallPc) :
    (callStep st buf arg pc).2.2.value + (callStep st buf arg pc).2.2.done CallPc.unreturned =
      pc.unreturned + (callStep st buf arg pc).2.2.done CallPc.accepting := by
  cases pc with
  | load max =>
    simp only [callStep]
    split_ifs
    · rfl
    · simp only [Cont.done, accepting_copyFrom]
      rfl
  | copy size nextIdx k =>
    cases arg with
    | none => rfl
    | some r =>
      simp only [callStep, Cont.done, accepting_copyFrom]
      rfl
  | storeIdx size nextIdx => exact Nat.zero_add size
  | fetchAdd size => exact Nat.zero_add size
  | fetchSub size => rfl

theorem noneStep_accepts (buf : CyclicBuffer) (pc : NonePc) :
    (noneStep buf pc).2.value + (noneStep buf pc).2.done NonePc.unreturned =
      pc.unreturned + (noneStep buf pc).2.done NonePc.accepting := by
  cases pc with
  | load => rfl
  | storeIdx size => exact Nat.zero_add size
  | fetchAdd size => exact Nat.zero_add size
  | storeZero size => rfl

namespace Sys

variable {s s' : Sys} {t : Stage}

/-- The bytes that `t` has accepted and not yet returned. -/
def unreturned (s : Sys) (t : Stage) : ℕ := (s.calls t).elim 0 Op.unreturned

theorem stream_afterCall_length (ht : t ≠ .read) (buf : CyclicBuffer) (arg : Option Region)
    (c : Cont CallPc) : ((s.afterCall t (buf, arg, c)).history.stream t).length =
      (s.history.stream t).length + c.done CallPc.accepting := by
  cases c with
  | ret n => exact congrArg List.length (stream_returned t)
  | goto pc =>
    cases pc with
    | storeIdx size nextIdx =>
      have h : ((s.history.copied (accepted buf t size arg) t).stream t).length =
          (s.history.stream t).length + size := by
        rw [stream_copied_self ht, List.length_append, length_accepted]
      exact h
    | load | copy | fetchAdd | fetchSub => rfl

theorem stream_afterNone_length (buf : CyclicBuffer) (c : Cont NonePc) :
    ((s.afterNone .recode (buf, c)).history.stream .recode).length =
      (s.history.stream .recode).length + c.done NonePc.accepting := by
  cases c with
  | ret n => rfl
  | goto pc =>
    cases pc with
    | storeIdx size =>
      have h : ((s.history.copied (accepted buf .recode size none) .recode).stream .recode).length =
          (s.history.stream .recode).length + size := by
        rw [stream_copied_self (by simp), List.length_append, length_accepted]
      exact h
    | load | fetchAdd | storeZero => rfl

theorem history_stream_afterCall_of_ne {u : Stage} (hu : t ≠ u)
    (r : CyclicBuffer × Option Region × Cont CallPc) :
    (s.afterCall u r).history.stream t = s.history.stream t := by
  obtain ⟨buf, arg, c⟩ := r
  cases c with
  | ret n => exact stream_returned t
  | goto pc =>
    cases pc with
    | storeIdx size nextIdx => exact stream_copied_of_ne hu
    | load | copy | fetchAdd | fetchSub => rfl

theorem history_stream_afterNone_of_ne {u : Stage} (hu : t ≠ u) (r : CyclicBuffer × Cont NonePc) :
    (s.afterNone u r).history.stream t = s.history.stream t := by
  obtain ⟨buf, c⟩ := r
  cases c with
  | ret n => rfl
  | goto pc =>
    cases pc with
    | storeIdx size => exact stream_copied_of_ne hu
    | load | fetchAdd | storeZero => rfl

theorem unreturned_afterCall (r : CyclicBuffer × Option Region × Cont CallPc) :
    (s.afterCall t r).unreturned t = r.2.2.done CallPc.unreturned := by
  rw [unreturned, calls_afterCall, Function.update_self]
  cases r.2.2 <;> rfl

theorem unreturned_afterNone (r : CyclicBuffer × Cont NonePc) :
    (s.afterNone t r).unreturned t = r.2.done NonePc.unreturned := by
  rw [unreturned, calls_afterNone, Function.update_self]
  cases r.2 <;> rfl

theorem sum_returned_call {arg : Option Region} {pc : CallPc} (hop : s.calls t = some (.call arg pc)) :
    (returnedSizes t s (.step t) s').sum = (callStep t s.buf arg pc).2.2.value := by
  rcases hr : callStep t s.buf arg pc with ⟨b, a, c⟩
  cases c <;> simp [returnedSizes, returns, hop, hr, Cont.value]

theorem sum_returned_none {pc : NonePc} (hop : s.calls t = some (.recodeNone pc)) :
    (returnedSizes t s (.step t) s').sum = (noneStep s.buf pc).2.value := by
  rcases hr : noneStep s.buf pc with ⟨b, c⟩
  cases c <;> simp [returnedSizes, returns, hop, hr, Cont.value]

/-- **Step lemma**: what is accepted is returned, or will be. -/
theorem accepted_step (hwf : s.WellFormed) (ht : t ≠ .read) {e : Event} (hs : s.step e = some s') :
    (returnedSizes t s e s').sum + s'.unreturned t + (s.history.stream t).length =
      s.unreturned t + (s'.history.stream t).length := by
  have hinvoke : ∀ {u op}, op.unreturned = 0 → s.invoke u op = some s' →
      s'.unreturned t = s.unreturned t ∧ s'.history = s.history := by
    intro u op hop hi
    unfold invoke at hi
    split_ifs at hi with hnone
    obtain rfl := Option.some.inj hi
    refine ⟨?_, rfl⟩
    simp only [unreturned]
    rcases eq_or_ne t u with rfl | hne
    · rw [Function.update_self, Option.isNone_iff_eq_none.mp hnone]
      exact hop
    · rw [Function.update_of_ne hne]
  cases e with
  | write | recodeXor | recodeNone | read =>
    obtain ⟨hun, hhist⟩ := hinvoke rfl hs
    rw [hun, hhist]
    exact congrArg (· + _) (Nat.zero_add _)
  | step u =>
    rw [step] at hs
    split at hs
    · exact absurd hs (by simp)
    · next arg pc hop =>
      obtain rfl := Option.some.inj hs
      rcases eq_or_ne u t with rfl | hne
      · have hacc := callStep_accepts u s.buf arg pc
        have hlen := stream_afterCall_length (s := s) ht (callStep u s.buf arg pc).1
          (callStep u s.buf arg pc).2.1 (callStep u s.buf arg pc).2.2
        rw [sum_returned_call hop, unreturned_afterCall, hlen, hacc, unreturned, hop]
        exact (Nat.add_assoc _ _ _).trans (congrArg _ (Nat.add_comm _ _))
      · have hun : (s.afterCall u (callStep u s.buf arg pc)).unreturned t = s.unreturned t := by
          rw [unreturned, calls_afterCall, Function.update_of_ne hne.symm]
          rfl
        rw [hun, history_stream_afterCall_of_ne hne.symm, returnedSizes, if_neg hne, List.sum_nil,
          Nat.zero_add]
    · next pc hop =>
      obtain rfl := Option.some.inj hs
      obtain rfl := hwf.recoder u pc hop
      rcases eq_or_ne Stage.recode t with rfl | hne
      · have hacc := noneStep_accepts s.buf pc
        have hlen := stream_afterNone_length (s := s) (noneStep s.buf pc).1 (noneStep s.buf pc).2
        rw [sum_returned_none hop, unreturned_afterNone, hlen, hacc, unreturned, hop]
        exact (Nat.add_assoc _ _ _).trans (congrArg _ (Nat.add_comm _ _))
      · have hun : (s.afterNone .recode (noneStep s.buf pc)).unreturned t = s.unreturned t := by
          rw [unreturned, calls_afterNone, Function.update_of_ne hne.symm]
          rfl
        rw [hun, history_stream_afterNone_of_ne hne.symm, returnedSizes, if_neg hne, List.sum_nil,
          Nat.zero_add]

end Sys

/-- **What is accepted is what is returned**: between two calls of the writer the bytes accepted are
as many as its calls returned, and so for the recoder. -/
theorem cyclicBuffer_accepts (malloc : ℕ → Option Region) (chunks : ℤ) (buf : CyclicBuffer)
    (h1 : 1 ≤ chunks) (h2 : chunks ≤ 0x40000) (hinit : cyclicBufferInit malloc chunks = .ok buf)
    (es : List Event) (s : Sys) (hrun : Run.run Sys.step (Sys.start buf) es = some s) {t : Stage}
    (ht : t ≠ .read) (hidle : s.calls t = none) :
    (s.history.stream t).length =
      (Run.outputs Sys.step (Sys.returnedSizes t) (Sys.start buf) es).sum := by
  have key : (∃ pos leak, s.Inv pos leak) ∧
      (Run.outputs Sys.step (Sys.returnedSizes t) (Sys.start buf) es).sum + s.unreturned t =
        (s.history.stream t).length := by
    refine Run.run_induction (fun es s => (∃ pos leak, s.Inv pos leak) ∧
      (Run.outputs Sys.step (Sys.returnedSizes t) (Sys.start buf) es).sum + s.unreturned t =
        (s.history.stream t).length) ?_ ?_ es s hrun
    · refine ⟨⟨_, _, start_inv h1 h2 hinit⟩, ?_⟩
      cases t <;> rfl
    · rintro es s e s' hrun ⟨⟨pos, leak, hi⟩, ih⟩ hs
      refine ⟨⟨_, _, hi.step hs⟩, ?_⟩
      have hstep := Sys.accepted_step hi.toWellFormed ht hs
      rw [Run.outputs_snoc hrun hs, List.sum_append]
      omega
  have hun : s.unreturned t = 0 := by
    rw [Sys.unreturned, hidle]
    rfl
  rw [← key.2, hun, Nat.add_zero]

end Cryptochan
