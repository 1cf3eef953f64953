import Cryptochan.Buffer.System

/-!
# Cryptochan.Buffer.RecodeNone — what `recode_none` loses

`cyclic_buffer_recode_none` loads `available_to_recode` and later stores `0` to it, where
`cyclic_buffer_recode_xor` subtracts what it took.  Bytes that a writer adds in between are never
counted again.  `Sys.overtaken` is the number of bytes an event adds in that window; the sum of
the leaks and of what the window will lose (`Sys.excess`) grows by exactly that number
(`Sys.Inv.leak_step`).  So a run that ends between calls has lost nothing if and only if no
`fetch_add` of the writer fell into a window.
-/

namespace Cryptochan

open Circular CreditRing

/-- What the store of `0` will lose, for the value `avail` of the counter. -/
def NonePc.excess (avail : ℕ) : NonePc → ℕ
  | .load => 0
  | .storeIdx size | .fetchAdd size | .storeZero size => avail - size

def Op.excess (avail : ℕ) : Op → ℕ
  | .call _ _ => 0
  | .recodeNone pc => pc.excess avail

/-- What a call is about to add to the next counter. -/
def CallPc.adding : CallPc → ℕ
  | .fetchAdd size => size
  | _ => 0

namespace Sys

/-- What the `recode_none` in progress will lose as things stand. -/
def excess (s : Sys) : ℕ := (s.calls .recode).elim 0 (Op.excess (s.buf.available .recode))

/-- The bytes a writer's `fetch_add` adds between the load and the store of a `recode_none`. -/
def overtaken (s : Sys) : Event → ℕ
  | .step .write => match s.calls .write, s.calls .recode with
    | some (.call _ pc), some (.recodeNone pc') => if pc' = .load then 0 else pc.adding
    | _, _ => 0
  | _ => 0

/-- No byte accepted so far is lost: the counters add up, the indices fit, and the bytes not yet
read are the contents of the buffer. -/
structure NothingLost (s : Sys) : Prop where
  sum : s.buf.availableToRead + s.buf.availableToRecode + s.buf.availableToWrite = s.buf.totalSize
  write_idx : s.buf.writeIdx = (s.buf.recodeIdx + s.buf.availableToRecode) % s.buf.totalSize
  recode_idx : s.buf.recodeIdx = (s.buf.readIdx + s.buf.availableToRead) % s.buf.totalSize
  count : s.history.consumed + s.buf.availableToRead + s.buf.availableToRecode =
    s.history.written.length
  contents : Represents s.buf.totalSize s.buf (s.history.written.drop s.history.masked.length)
    ((xorStream s.history.written s.history.masked).drop s.history.consumed)

end Sys

section CallStep

variable {buf : CyclicBuffer} {arg : Option Region}

/-- Only the writer's `fetch_add` changes the counter of another thread's `recode_none`. -/
theorem available_recode_write (buf : CyclicBuffer) (arg : Option Region) (pc : CallPc)
    (h : ∀ size, pc = .fetchAdd size → buf.available .recode + size < 2 ^ 32) :
    (callStep .write buf arg pc).1.available .recode =
      buf.available .recode + pc.adding := by
  cases pc with
  | load max => unfold callStep; split_ifs <;> rfl
  | copy size nextIdx k => cases arg <;> simp [callStep, CallPc.adding]
  | storeIdx size nextIdx => simp [callStep, CallPc.adding]
  | fetchAdd size => simp [callStep, Stage.next, u32Add_eq (h size rfl), CallPc.adding]
  | fetchSub size => simp [callStep, CallPc.adding]

theorem available_recode_read (pc : CallPc) :
    (callStep .read buf arg pc).1.available .recode = buf.available .recode := by
  cases pc with
  | load max => unfold callStep; split_ifs <;> rfl
  | copy size nextIdx k => cases arg <;> simp [callStep]
  | storeIdx | fetchAdd | fetchSub => simp [callStep, Stage.next]

end CallStep

namespace Sys

variable {s s' : Sys} {pos leak : Stage → ℕ}

theorem excess_of_calls {op : Op} (hc : s.calls .recode = some op) :
    s.excess = op.excess (s.buf.available .recode) := by
  rw [excess, hc]
  rfl

theorem excess_congr (hc : s'.calls .recode = s.calls .recode)
    (hb : s'.buf.available .recode = s.buf.available .recode) : s'.excess = s.excess := by
  rw [excess, excess, hc, hb]

namespace Inv

/-- In its window a `recode_none` has claimed at most what is available. -/
theorem size_le_available (h : s.Inv pos leak) {pc : NonePc}
    (hc : s.calls .recode = some (.recodeNone pc)) :
    pc.phase.size ≤ s.buf.available .recode := by
  have hb := h.streams.piped.balanced
  have h1 := hb.credit_recode
  have h2 := hb.held_recode
  have hp : s.phase .recode = pc.phase := by rw [Sys.phase, hc]; rfl
  rw [hp] at h1 h2
  cases pc with
  | load => exact Nat.zero_le _
  | storeIdx size | fetchAdd size =>
    simp only [NonePc.phase, Phase.held_claim, Phase.held_moved, Phase.owed_claim,
      Phase.owed_moved, Phase.size_claim, Phase.size_moved] at h1 h2 ⊢
    omega
  | storeZero size =>
    simp only [NonePc.phase, Phase.held_passed, Phase.owed_passed, Phase.size_passed] at h1 h2 ⊢
    omega

/-- A step of the writer adds to the excess what it adds to the counter. -/
theorem excess_write (h : s.Inv pos leak) {arg : Option Region} {pc : CallPc}
    (ht : s.calls .write = some (.call arg pc)) :
    (s.afterCall .write (callStep .write s.buf arg pc)).excess =
      s.excess + s.overtaken (.step .write) := by
  have hc : (s.afterCall .write (callStep .write s.buf arg pc)).calls .recode = s.calls .recode := by
    rw [calls_afterCall, Function.update_of_ne (by simp)]
  have hav := available_recode_write s.buf arg pc fun size hpc => by
    have hlt := h.streams.piped.balanced.fetchAdd_lt .write
    rw [(h.callAt ht).phase, hpc] at hlt
    exact hlt
  cases hr : s.calls .recode with
  | none => simp [excess, overtaken, hc, ht, hr]
  | some op =>
    rw [excess_of_calls hr, excess_of_calls (hc.trans hr), buf_afterCall, hav, overtaken, ht, hr]
    cases op with
    | call arg' pc' => rfl
    | recodeNone pc' =>
      have hle := h.size_le_available hr
      cases pc' with
      | load => rfl
      | storeIdx n | fetchAdd n | storeZero n =>
        have hn : n ≤ s.buf.available .recode := hle
        simp only [Op.excess, NonePc.excess, reduceCtorEq, if_false]
        omega

/-- A step of `recode_none`: the store of `0` turns the excess into a leak. -/
theorem excess_none (leak : Stage → ℕ) {pc : NonePc} (ht : s.calls .recode = some (.recodeNone pc)) :
    pc.leak s.buf leak .recode + (s.afterNone .recode (noneStep s.buf pc)).excess =
      leak .recode + s.excess := by
  rw [excess_of_calls ht]
  cases pc with
  | load | storeIdx size | fetchAdd size =>
    simp [excess, calls_afterNone, noneStep, Op.excess, NonePc.excess, NonePc.leak]
  | storeZero size =>
    simp [excess, calls_afterNone, noneStep, Op.excess, NonePc.excess, NonePc.leak]

/-- **Step lemma**: leak and excess together grow by what is overtaken. -/
theorem leak_step (h : s.Inv pos leak) {e : Event} (hs : s.step e = some s') :
    s.nextLeak leak e .recode + s'.excess = leak .recode + s.excess + s.overtaken e := by
  cases e with
  | write src max | read src max =>
    simp only [Sys.step, Sys.invoke] at hs
    split_ifs at hs
    obtain rfl := Option.some.inj hs
    have e : ∀ t op, t ≠ .recode → ({ s with calls := Function.update s.calls t (some op) } :
        Sys).excess = s.excess := by
      intro t op ht
      exact excess_congr (Function.update_of_ne ht.symm _ _) rfl
    rw [e _ _ (by simp)]
    rfl
  | recodeXor src max | recodeNone =>
    simp only [Sys.step, Sys.invoke] at hs
    split_ifs at hs with hn
    obtain rfl := Option.some.inj hs
    rw [Option.isNone_iff_eq_none] at hn
    simp [excess, hn, nextLeak, overtaken, Op.excess, NonePc.excess]
  | step t =>
    rw [Sys.step] at hs
    split at hs
    · exact absurd hs (by simp)
    · next arg pc ht =>
      obtain rfl := Option.some.inj hs
      have hl : s.nextLeak leak (.step t) = leak := by rw [nextLeak, ht]
      rw [hl]
      cases t with
      | write => rw [h.excess_write ht, Nat.add_assoc]
      | read =>
        have e : (s.afterCall .read (callStep .read s.buf arg pc)).excess = s.excess :=
          excess_congr (by rw [calls_afterCall, Function.update_of_ne (by simp)])
            (by rw [buf_afterCall, available_recode_read])
        rw [e]
        rfl
      | recode =>
        have e : (s.afterCall .recode (callStep .recode s.buf arg pc)).excess = 0 := by
          rw [excess, calls_afterCall, Function.update_self]
          cases (callStep .recode s.buf arg pc).2.2 <;> rfl
        rw [e, excess_of_calls ht]
        rfl
    · next pc ht =>
      obtain rfl := Option.some.inj hs
      obtain rfl := h.recoder t pc ht
      have hl : s.nextLeak leak (.step .recode) = pc.leak s.buf leak := by rw [nextLeak, ht]
      rw [hl]
      exact excess_none leak ht

/-- Without a leak nothing is lost. -/
theorem nothingLost (h : s.Inv pos leak) (hq : s.Quiescent) (hl : leak .recode = 0) :
    s.NothingLost := by
  have hr := h.represents hq hl
  refine ⟨hr.sum_available, hr.idx_prev .recode, hr.idx_prev .read, ?_, hr⟩
  obtain ⟨ew, em, ec⟩ := h.lengths hq
  have h2 : s.buf.availableToRecode + _ + _ = _ := h.streams.piped.balanced.credit_recode
  have h3 : s.buf.availableToRead + _ = _ := h.streams.piped.balanced.credit_read
  rw [phase_of_none (hq _), Phase.owed_idle] at h2 h3
  omega

end Inv

end Sys

/-- No event of the run overtakes a `recode_none`. -/
def RaceFree (s0 : Sys) (es : List Event) : Prop :=
  ∀ es₁ e es₂ s, es = es₁ ++ e :: es₂ → Run.run Sys.step s0 es₁ = some s → s.overtaken e = 0

theorem raceFree_nil (s0 : Sys) : RaceFree s0 [] := by
  intro es₁ e es₂ s he _
  simp at he

theorem raceFree_cons {s0 : Sys} {e : Event} {es : List Event} :
    RaceFree s0 (e :: es) ↔ s0.overtaken e = 0 ∧ ∀ s1 ∈ Sys.step s0 e, RaceFree s1 es := by
  constructor
  · intro h
    refine ⟨h [] e es s0 rfl rfl, ?_⟩
    intro s1 hs1 es₁ e' es₂ s he hs
    refine h (e :: es₁) e' es₂ s (by rw [he, List.cons_append]) ?_
    rw [Run.run_cons, Option.mem_def.mp hs1]
    exact hs
  · rintro ⟨h0, hrest⟩ es₁ e' es₂ s he hs
    cases es₁ with
    | nil =>
      obtain ⟨rfl, -⟩ := List.cons_eq_cons.mp he
      obtain rfl := Option.some.inj hs
      exact h0
    | cons e₁ es₁ =>
      obtain ⟨rfl, he'⟩ := List.cons_eq_cons.mp he
      rw [Run.run_cons] at hs
      obtain ⟨s1, hs1, hs'⟩ := Option.bind_eq_some_iff.mp hs
      exact hrest s1 hs1 es₁ e' es₂ s he' hs'

instance decidableRaceFree : ∀ (es : List Event) (s0 : Sys), Decidable (RaceFree s0 es)
  | [], s0 => isTrue (raceFree_nil s0)
  | e :: es, s0 =>
    have := decidableRaceFree es
    decidable_of_iff (s0.overtaken e = 0 ∧ ∀ s1 ∈ Sys.step s0 e, RaceFree s1 es) raceFree_cons.symm

theorem raceFree_snoc {s0 s : Sys} {es : List Event} {e : Event}
    (hs : Run.run Sys.step s0 es = some s) :
    RaceFree s0 (es ++ [e]) ↔ RaceFree s0 es ∧ s.overtaken e = 0 := by
  constructor
  · intro h
    refine ⟨?_, h es e [] s rfl hs⟩
    intro es₁ e' es₂ s' he hs'
    exact h es₁ e' (es₂ ++ [e]) s' (by rw [he, List.append_assoc]; rfl) hs'
  · rintro ⟨h, h0⟩ es₁ e' es₂ s' he hs'
    rcases List.eq_nil_or_concat es₂ with rfl | ⟨es₃, e₃, rfl⟩
    · obtain ⟨rfl, he'⟩ := List.append_inj' he rfl
      obtain rfl : e = e' := by simpa using he'
      rw [hs] at hs'
      obtain rfl := Option.some.inj hs'
      exact h0
    · rw [List.concat_eq_append, ← List.cons_append, ← List.append_assoc] at he
      exact h es₁ e' es₃ s' (List.append_inj' he rfl).1 hs'

/-- **Run lemma**: something has leaked, or will, if and only if something was overtaken. -/
theorem run_leak {malloc : ℕ → Option Region} {chunks : ℤ} {buf : CyclicBuffer}
    (h1 : 1 ≤ chunks) (h2 : chunks ≤ 0x40000) (hinit : cyclicBufferInit malloc chunks = .ok buf)
    {es : List Event} {s : Sys} (hrun : Run.run Sys.step (Sys.start buf) es = some s) :
    ∃ pos leak, s.Inv pos leak ∧ (leak .recode + s.excess = 0 ↔ RaceFree (Sys.start buf) es) := by
  refine Run.run_induction (fun es s => ∃ pos leak, s.Inv pos leak ∧
    (leak .recode + s.excess = 0 ↔ RaceFree (Sys.start buf) es)) ?_ ?_ es s hrun
  · exact ⟨_, _, start_inv h1 h2 hinit, iff_of_true rfl (raceFree_nil _)⟩
  · rintro es s e s' hes ⟨pos, leak, hi, hiff⟩ hs
    refine ⟨_, _, hi.step hs, ?_⟩
    rw [hi.leak_step hs, raceFree_snoc hes, ← hiff]
    omega

/-- **When `recode_none` is safe**: a run that ends between calls has lost nothing if and only if
no `fetch_add` of the writer fell between the load and the store of a `recode_none`. -/
theorem recodeNone_nothingLost_iff (malloc : ℕ → Option Region) (chunks : ℤ) (buf : CyclicBuffer)
    (h1 : 1 ≤ chunks) (h2 : chunks ≤ 0x40000) (hinit : cyclicBufferInit malloc chunks = .ok buf)
    (es : List Event) (s : Sys) (hrun : Run.run Sys.step (Sys.start buf) es = some s)
    (hq : s.Quiescent) : s.NothingLost ↔ RaceFree (Sys.start buf) es := by
  obtain ⟨pos, leak, hi, hiff⟩ := run_leak h1 h2 hinit hrun
  have hsum := hi.sum_available hq
  have hx : s.excess = 0 := by rw [Sys.excess, hq]; rfl
  rw [hx, Nat.add_zero] at hiff
  rw [← hiff]
  constructor
  · intro hn
    have hs := hn.sum
    simp only [CyclicBuffer.available] at hsum
    omega
  · exact hi.nothingLost hq

/-! ### A lost byte -/

/-- The recoder loads the counter, the writer adds one byte to it, the recoder stores `0`. -/
def lostByte : List Event :=
  .write (some fun _ => 7) 1 :: List.replicate 3 (.step .write) ++
  [.recodeNone, .step .recode, .step .write] ++ List.replicate 3 (.step .recode) ++ [.step .write]

theorem recodeNone_loses_byte : ∃ s, Run.run Sys.step (Sys.start oneChunk) lostByte = some s ∧
    s.Quiescent ∧ s.history.written = [7] ∧
    s.buf.availableToRead + s.buf.availableToRecode + s.buf.availableToWrite = 0xFFF ∧
    ¬ s.NothingLost := by
  have h : (Run.run Sys.step (Sys.start oneChunk) lostByte).map (fun s =>
      ((s.calls .write).isNone && (s.calls .recode).isNone && (s.calls .read).isNone,
        s.history.written, s.buf.totalSize,
        s.buf.availableToRead + s.buf.availableToRecode + s.buf.availableToWrite)) =
      some (true, [7], 0x1000, 0xFFF) := by decide +kernel
  obtain ⟨s, hs, he⟩ := Option.map_eq_some_iff.mp h
  simp only [Prod.mk.injEq, Bool.and_eq_true, Option.isNone_iff_eq_none] at he
  obtain ⟨⟨⟨hw, hc⟩, hr⟩, hwritten, htotal, hsum⟩ := he
  refine ⟨s, hs, fun t => by cases t <;> assumption, hwritten, hsum, ?_⟩
  intro hn
  have := hn.sum
  omega

/-- The same calls one after the other. -/
def keptByte : List Event :=
  .write (some fun _ => 7) 1 :: List.replicate 5 (.step .write) ++
  .recodeNone :: List.replicate 4 (.step .recode)

theorem recodeNone_nothingLost_iff_keptByte : ∃ s,
    Run.run Sys.step (Sys.start oneChunk) keptByte = some s ∧ s.history.written = [7] ∧
    s.NothingLost ∧ (s.NothingLost ↔ RaceFree (Sys.start oneChunk) keptByte) := by
  have h : (Run.run Sys.step (Sys.start oneChunk) keptByte).map (fun s =>
      ((s.calls .write).isNone && (s.calls .recode).isNone && (s.calls .read).isNone,
        s.history.written)) = some (true, [7]) := by decide +kernel
  obtain ⟨s, hs, he⟩ := Option.map_eq_some_iff.mp h
  simp only [Prod.mk.injEq, Bool.and_eq_true, Option.isNone_iff_eq_none] at he
  obtain ⟨⟨⟨hw, hc⟩, hr⟩, hwritten⟩ := he
  have hiff := recodeNone_nothingLost_iff (fun _ => some fun _ => 0) 1 oneChunk
    (by decide) (by decide) oneChunk_init keptByte s hs fun t => by cases t <;> assumption
  exact ⟨s, hs, hwritten, hiff.mpr (by decide +kernel), hiff⟩

end Cryptochan
