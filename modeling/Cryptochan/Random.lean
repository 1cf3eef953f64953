import Cryptochan.Lib.Bits
import Cryptochan.Machine
import Mathlib.Data.Finite.Prod

/-!
# Cryptochan.Random — the generator of `random.c`

`xoshiro128plus` and `fill_prng_random`, on `BitVec 32` words.  The time and the process number that
seed the generator are arguments.  `filled` is compared and advanced as a `size_t`, and it never
passes `max`.

Main results: no seed leads to the all-zero state and every orbit is a cycle
(`xoshiro128plus_neverDegenerates`); the bytes written are the first ones of a stream that does not
depend on `max` (`fillPrngRandom_stream`).
-/

namespace Cryptochan

/-- `uint32_t state[4]`. -/
structure XoshiroState where
  s0 : BitVec 32
  s1 : BitVec 32
  s2 : BitVec 32
  s3 : BitVec 32
  deriving DecidableEq, Repr

/-- `xoshiro128plus`: the result and the new state. -/
def xoshiro128plus (s : XoshiroState) : BitVec 32 × XoshiroState :=
  let result := s.s0 + s.s3
  let t := s.s1 <<< 9
  let s := { s with s2 := s.s2 ^^^ s.s0 }
  let s := { s with s3 := s.s3 ^^^ s.s1 }
  let s := { s with s1 := s.s1 ^^^ s.s2 }
  let s := { s with s0 := s.s0 ^^^ s.s3 }
  let s := { s with s2 := s.s2 ^^^ t }
  let s := { s with s3 := s.s3 <<< 11 ||| s.s3 >>> (32 - 11) }
  (result, s)

namespace XoshiroState

/-- The state update of `xoshiro128plus`. -/
def next (s : XoshiroState) : XoshiroState := (xoshiro128plus s).2

/-- The result of the `n`-th call of `xoshiro128plus` from now on. -/
def output (s : XoshiroState) (n : ℕ) : BitVec 32 := (xoshiro128plus (next^[n] s)).1

def zero : XoshiroState := ⟨0, 0, 0, 0⟩

theorem output_succ (s : XoshiroState) (n : ℕ) : s.next.output n = s.output (n + 1) := rfl

end XoshiroState

/-- The words of the seeding loop: `seed = state[i] = seed * 0x1b1 + i`. -/
def seedWord (seed : BitVec 32) : ℕ → BitVec 32
  | 0 => seed * 0x1b1 + BitVec.ofNat 32 0
  | i + 1 => seedWord seed i * 0x1b1 + BitVec.ofNat 32 (i + 1)

/-- The state after the seeding loop. -/
def seedState (seed : BitVec 32) : XoshiroState :=
  ⟨seedWord seed 0, seedWord seed 1, seedWord seed 2, seedWord seed 3⟩

/-- The locals of `fill_prng_random` that its loops change, and the buffer. -/
structure Filling where
  state : XoshiroState
  buf : Region
  filled : ℕ

/-- `(uint8_t)v`. -/
def lowByte (v : BitVec 32) : UInt8 := UInt8.ofBitVec (v.setWidth 8)

/-- The bytes of a word in the memory of a little-endian host. -/
def wordBytes (v : BitVec 32) : Region := fun k => lowByte (v >>> (8 * k))

/-- `*((uint32_t*)(buf + off)) = v`. -/
def storeWord (buf : Region) (off : ℕ) (v : BitVec 32) : Region := memcpy buf off (wordBytes v) 0 4

namespace Filling

/-- `for (; filled < max_; filled += sizeof(uint32_t))`. -/
def words (max' : ℕ) (f : Filling) : Filling :=
  if f.filled < max' then
    let r := xoshiro128plus f.state
    words max' ⟨r.2, storeWord f.buf f.filled r.1, f.filled + 4⟩
  else f
termination_by max' - f.filled

/-- `for (; filled < max; ++filled)`; the bytes of `next`, lowest first. -/
def tail (max : ℕ) (next : BitVec 32) (f : Filling) : Filling :=
  if f.filled < max then
    tail max (next >>> 8) { f with
      buf := Function.update f.buf f.filled (lowByte next)
      filled := f.filled + 1 }
  else f
termination_by max - f.filled

end Filling

/-- The part of `fill_prng_random` after the seeding. -/
def fillSeeded (state : XoshiroState) (buf : Region) (max : ℕ) : Filling :=
  let f := Filling.words (max / 4 * 4) ⟨state, buf, 0⟩
  if f.filled < max then
    let r := xoshiro128plus f.state
    Filling.tail max r.1 { f with state := r.2 }
  else f

/-- `fill_prng_random`: the buffer and the result. -/
def fillPrngRandom (tvSec pid tvUsec : ℤ) (buf : Region) (max : ℕ) : Region × ℕ :=
  let seed := (BitVec.ofInt 32 tvSec + BitVec.ofInt 32 pid) ^^^ BitVec.ofInt 32 tvUsec
  let f := fillSeeded (seedState seed) buf max
  (f.buf, f.filled)

/-! ### The orbits of the generator -/

namespace XoshiroState

variable {s s' : XoshiroState}

/-- The update without the order of the assignments. -/
theorem next_eq (s : XoshiroState) : s.next =
    ⟨s.s0 ^^^ (s.s3 ^^^ s.s1), s.s1 ^^^ (s.s2 ^^^ s.s0), s.s2 ^^^ s.s0 ^^^ s.s1 <<< 9,
      (s.s3 ^^^ s.s1) <<< 11 ||| (s.s3 ^^^ s.s1) >>> (32 - 11)⟩ := rfl

theorem xor_middle (a b c : BitVec 32) : a ^^^ b ^^^ (b ^^^ c) = a ^^^ c := by
  rw [BitVec.xor_assoc, ← BitVec.xor_assoc b b c, BitVec.xor_self, BitVec.zero_xor]

/-- The words come back one after the other: first `s0`, then `s1`, with it `s2` and `s3`. -/
theorem next_injective : Function.Injective next := by
  intro s s' h
  rw [next_eq, next_eq] at h
  injection h with h0 h1 h2 h3
  have h31 : s.s3 ^^^ s.s1 = s'.s3 ^^^ s'.s1 :=
    Bits.injective_shift_or_shift (show 11 ≤ 32 by decide) h3
  have e0 : s.s0 = s'.s0 := by
    rw [h31] at h0
    exact (BitVec.xor_left_inj _).mp h0
  have e1 : s.s1 = s'.s1 := by
    have h12 : s.s1 ^^^ s.s1 <<< 9 = s'.s1 ^^^ s'.s1 <<< 9 := by
      rw [← xor_middle s.s1 (s.s2 ^^^ s.s0), h1, h2, xor_middle]
    exact Bits.injective_xor_shiftLeft (show 0 < 9 by decide) h12
  have e2 : s.s2 = s'.s2 := by
    rw [e1, e0] at h1
    exact (BitVec.xor_left_inj _).mp ((BitVec.xor_right_inj _).mp h1)
  have e3 : s.s3 = s'.s3 := by
    rw [e1] at h31
    exact (BitVec.xor_left_inj _).mp h31
  cases s
  cases s'
  simp only [mk.injEq]
  exact ⟨e0, e1, e2, e3⟩

instance : Finite XoshiroState := by
  refine Finite.of_injective
    (fun s : XoshiroState => (s.s0.toFin, s.s1.toFin, s.s2.toFin, s.s3.toFin)) ?_
  rintro ⟨a0, a1, a2, a3⟩ ⟨b0, b1, b2, b3⟩ h
  simp only [Prod.mk.injEq, BitVec.toFin_inj] at h
  obtain ⟨rfl, rfl, rfl, rfl⟩ := h
  rfl

theorem next_zero : zero.next = zero := rfl

end XoshiroState

/-- If the first word is zero then the second one is one. -/
theorem seedState_ne_zero (seed : BitVec 32) : seedState seed ≠ XoshiroState.zero := by
  intro h
  have h0 : seedWord seed 0 = 0 := congrArg XoshiroState.s0 h
  have h1 : seedWord seed 0 * 0x1b1 + 1 = 0 := congrArg XoshiroState.s1 h
  rw [h0] at h1
  exact absurd h1 (by decide)

open XoshiroState in
/-- **The generator never degenerates**: its step is a bijection that fixes zero, no seed gives
zero, and the states from a seed form a cycle that does not contain zero. -/
theorem xoshiro128plus_neverDegenerates :
    Function.Bijective next ∧ zero.next = zero ∧
    ∀ seed : BitVec 32, seedState seed ≠ zero ∧
      (∀ n, next^[n] (seedState seed) ≠ zero) ∧
      (∃ p, 0 < p ∧ ∀ n, next^[n + p] (seedState seed) = next^[n] (seedState seed)) ∧
      ∀ n q, next^[q] (next^[n] (seedState seed)) = next^[n] (seedState seed) →
        next^[q] (seedState seed) = seedState seed := by
  refine ⟨Finite.injective_iff_bijective.mp next_injective, next_zero, ?_⟩
  intro seed
  refine ⟨seedState_ne_zero seed, ?_, ?_, ?_⟩
  · exact Bits.iterate_ne_fixed next_injective next_zero (seedState_ne_zero seed)
  · exact Bits.iterate_returns next_injective _
  · intro n q h
    exact Bits.period_of_later next_injective h

/-! ### The bytes of the generator -/

/-- The results of `xoshiro128plus` one after the other, as bytes. -/
def XoshiroState.stream (s : XoshiroState) : Region := fun i => wordBytes (s.output (i / 4)) (i % 4)

theorem XoshiroState.stream_of_lt (s : XoshiroState) {k : ℕ} (hk : k < 4) :
    s.stream k = wordBytes (xoshiro128plus s).1 k := by
  rw [stream, Nat.div_eq_of_lt hk, Nat.mod_eq_of_lt hk]
  rfl

theorem XoshiroState.stream_next (s : XoshiroState) (k : ℕ) :
    s.next.stream k = s.stream (4 + k) := by
  rw [stream, stream, output_succ, show (4 + k) / 4 = k / 4 + 1 by omega,
    show (4 + k) % 4 = k % 4 by omega]

theorem XoshiroState.stream_iterate (s : XoshiroState) (m k : ℕ) :
    (next^[m] s).stream k = s.stream (4 * m + k) := by
  induction m generalizing s with
  | zero => rw [Function.iterate_zero, id, Nat.mul_zero, Nat.zero_add]
  | succ m ih =>
    rw [Function.iterate_succ_apply, ih, stream_next]
    congr 1; omega

namespace Filling

/-- The word loop writes the stream, a multiple of four bytes. -/
theorem words_eq (m : ℕ) (f : Filling) : f.words (f.filled + 4 * m) =
    ⟨XoshiroState.next^[m] f.state, memcpy f.buf f.filled f.state.stream 0 (4 * m),
      f.filled + 4 * m⟩ := by
  induction m generalizing f with
  | zero =>
    rw [words, if_neg (by omega), Nat.mul_zero, memcpy_zero]
    rfl
  | succ m ih =>
    have hword : storeWord f.buf f.filled (xoshiro128plus f.state).1 =
        memcpy f.buf f.filled f.state.stream 0 4 := by
      apply memcpy_congr
      intro k hk
      rw [Nat.zero_add, XoshiroState.stream_of_lt _ hk]
    have hrest : memcpy (memcpy f.buf f.filled f.state.stream 0 4) (f.filled + 4)
        f.state.next.stream 0 (4 * m) = memcpy f.buf f.filled f.state.stream 0 (4 + 4 * m) := by
      rw [← memcpy_memcpy]
      apply memcpy_congr
      intro k _
      rw [Nat.zero_add, Nat.zero_add, XoshiroState.stream_next]
    have ih' := ih ⟨f.state.next, memcpy f.buf f.filled f.state.stream 0 4, f.filled + 4⟩
    rw [hrest] at ih'
    rw [words, if_pos (by omega), show f.filled + 4 * (m + 1) = f.filled + 4 + 4 * m by omega,
      show 4 * (m + 1) = 4 + 4 * m by omega]
    simp only [hword]
    exact ih'

/-- The byte loop writes the first bytes of a word. -/
theorem tail_eq (m : ℕ) (next : BitVec 32) (f : Filling) : f.tail (f.filled + m) next =
    { f with buf := memcpy f.buf f.filled (wordBytes next) 0 m, filled := f.filled + m } := by
  induction m generalizing next f with
  | zero =>
    rw [tail, if_neg (by omega), memcpy_zero]
    rfl
  | succ m ih =>
    have hbyte : Function.update f.buf f.filled (lowByte next) =
        memcpy f.buf f.filled (wordBytes next) 0 1 := by
      funext i
      rw [memcpy]
      by_cases hi : i = f.filled
      · rw [hi, Function.update_self, if_pos (by omega)]
        simp [wordBytes]
      · rw [Function.update_of_ne hi, if_neg (by omega)]
    have hrest : memcpy (memcpy f.buf f.filled (wordBytes next) 0 1) (f.filled + 1)
        (wordBytes (next >>> 8)) 0 m = memcpy f.buf f.filled (wordBytes next) 0 (1 + m) := by
      rw [← memcpy_memcpy]
      apply memcpy_congr
      intro k _
      rw [Nat.zero_add, Nat.zero_add, wordBytes, wordBytes, ← BitVec.shiftRight_add, Nat.mul_add]
    have ih' := ih (next >>> 8) ⟨f.state, memcpy f.buf f.filled (wordBytes next) 0 1, f.filled + 1⟩
    rw [hrest] at ih'
    rw [tail, if_pos (by omega), show f.filled + (m + 1) = f.filled + 1 + m by omega,
      Nat.add_comm m 1, hbyte]
    exact ih'

end Filling

/-- The two loops meet. -/
theorem fillSeeded_eq (state : XoshiroState) (buf : Region) (max : ℕ) :
    (fillSeeded state buf max).buf = memcpy buf 0 state.stream 0 max ∧
      (fillSeeded state buf max).filled = max := by
  have hw := Filling.words_eq (max / 4) ⟨state, buf, 0⟩
  simp only [Nat.zero_add] at hw
  have hmul : 4 * (max / 4) = max / 4 * 4 := Nat.mul_comm _ _
  rw [hmul] at hw
  simp only [fillSeeded, hw]
  split_ifs with hlt
  · obtain ⟨r, hr, hr4⟩ : ∃ r, max = max / 4 * 4 + r ∧ r < 4 := ⟨max % 4, by omega, by omega⟩
    have ht := Filling.tail_eq r (xoshiro128plus (XoshiroState.next^[max / 4] state)).1
      ⟨(xoshiro128plus (XoshiroState.next^[max / 4] state)).2,
        memcpy buf 0 state.stream 0 (max / 4 * 4), max / 4 * 4⟩
    simp only [← hr] at ht
    rw [ht]
    refine ⟨?_, rfl⟩
    have happ := memcpy_memcpy buf 0 state.stream 0 (max / 4 * 4) r
    rw [← hr] at happ
    simp only [Nat.zero_add] at happ
    rw [← happ]
    apply memcpy_congr
    intro k hk
    rw [Nat.zero_add, ← hmul, ← XoshiroState.stream_iterate, XoshiroState.stream_of_lt _ (by omega)]
  · have hmax : max / 4 * 4 = max := by
      have : ¬ max / 4 * 4 < max := hlt
      omega
    rw [hmax]
    exact ⟨rfl, rfl⟩

/-- The whole function: the seed only chooses the stream, and never the one of zeros. -/
theorem fillPrngRandom_eq (tvSec pid tvUsec : ℤ) (buf : Region) (max : ℕ) :
    ∃ state, state ≠ XoshiroState.zero ∧
      fillPrngRandom tvSec pid tvUsec buf max = (memcpy buf 0 state.stream 0 max, max) := by
  obtain ⟨hbuf, hfilled⟩ := fillSeeded_eq
    (seedState ((BitVec.ofInt 32 tvSec + BitVec.ofInt 32 pid) ^^^ BitVec.ofInt 32 tvUsec)) buf max
  exact ⟨_, seedState_ne_zero _, Prod.ext hbuf hfilled⟩

/-- `lowByte` of a shifted word reads eight of its bits. -/
theorem wordBytes_toBitVec (v : BitVec 32) (k : ℕ) :
    (wordBytes v k).toBitVec = v.extractLsb' (8 * k) 8 := by
  apply BitVec.eq_of_getLsbD_eq
  intro i hi
  simp [wordBytes, lowByte, hi]

/-- The seed of `fill_prng_random`. -/
def prngSeed (tvSec pid tvUsec : ℤ) : BitVec 32 :=
  (BitVec.ofInt 32 tvSec + BitVec.ofInt 32 pid) ^^^ BitVec.ofInt 32 tvUsec

/-- `fill` returns `max` and writes the first `max` bytes of the outputs of `state`, and nothing else:
of fewer bytes one gets the beginning of those one gets of more. -/
structure FillsFrom (state : XoshiroState) (fill : Region → ℕ → Region × ℕ) : Prop where
  result : ∀ buf max, (fill buf max).2 = max
  written : ∀ buf max, ∀ i < max, ((fill buf max).1 i).toBitVec =
    (state.output (i / 4)).extractLsb' (8 * (i % 4)) 8
  rest : ∀ buf max i, max ≤ i → (fill buf max).1 i = buf i
  beginning : ∀ buf max buf' max', max ≤ max' →
    bytes (fill buf max).1 max <+: bytes (fill buf' max').1 max'

theorem fillsFrom_of_stream {state : XoshiroState} {fill : Region → ℕ → Region × ℕ}
    (h : ∀ buf max, fill buf max = (memcpy buf 0 state.stream 0 max, max)) :
    FillsFrom state fill := by
  have hin : ∀ buf max i, i < max → (fill buf max).1 i = state.stream i := by
    intro buf max i hi
    rw [h]
    dsimp only
    rw [memcpy, if_pos (by omega)]
    simp
  refine ⟨fun buf max => by rw [h], ?_, ?_, ?_⟩
  · intro buf max i hi
    rw [hin _ _ _ hi, XoshiroState.stream, wordBytes_toBitVec]
  · intro buf max i hi
    rw [h]
    dsimp only
    rw [memcpy, if_neg (by omega)]
  · intro buf max buf' max' hle
    rw [List.prefix_iff_eq_take]
    apply List.ext_getElem
    · simp [hle]
    · intro i h1 h2
      have hi : i < max := by simpa using h1
      simp [hin _ _ _ hi, hin _ _ _ (Nat.lt_of_lt_of_le hi hle)]

/-- **One byte stream**: `fill_prng_random` returns `max`, writes the first `max` bytes of a stream
that depends on the seeded state only, whatever that state is, and nothing else. -/
theorem fillPrngRandom_stream :
    (∀ state, FillsFrom state fun buf max =>
      ((fillSeeded state buf max).buf, (fillSeeded state buf max).filled)) ∧
    ∀ tvSec pid tvUsec, FillsFrom (seedState (prngSeed tvSec pid tvUsec))
      (fillPrngRandom tvSec pid tvUsec) := by
  have key : ∀ state buf max, ((fillSeeded state buf max).buf, (fillSeeded state buf max).filled) =
      (memcpy buf 0 state.stream 0 max, max) := fun state buf max =>
    Prod.ext (fillSeeded_eq state buf max).1 (fillSeeded_eq state buf max).2
  exact ⟨fun state => fillsFrom_of_stream (key state),
    fun tvSec pid tvUsec => fillsFrom_of_stream fun buf max =>
      key (seedState (prngSeed tvSec pid tvUsec)) buf max⟩

end Cryptochan
