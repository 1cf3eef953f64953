import Mathlib.Data.List.GetD
import Mathlib.Data.Set.Card
import Mathlib.Tactic.Ring
import Cryptochan.Random

/-!
# Cryptochan.Random.Seed — what a seed of `fill_prng_random` decides

The first word is twice a word that is affine in the seed, with an odd factor: it is even, and it
leaves the top bit of the seed open.  The second word decides that bit.  So eight bytes decide the
seed, and there are as many fills as seeds (`fillPrngRandom_range`).
-/

namespace Cryptochan

/-! ### The first two words -/

/-- `0x80000000`. -/
abbrev topBit : BitVec 32 := BitVec.twoPow 32 31

/-- Half of the first word. -/
def halfFirst (seed : BitVec 32) : BitVec 32 := seed * 17576062777 + 94179

theorem output_zero (seed : BitVec 32) : (seedState seed).output 0 = 2 * halfFirst seed := by
  show (seed * 433 + 0) + ((((seed * 433 + 0) * 433 + 1) * 433 + 2) * 433 + 3) = _
  unfold halfFirst
  ring

/-- Every word of the state has the top bit of the seed flipped into it. -/
theorem seedWord_add_topBit (seed : BitVec 32) (i : ℕ) :
    seedWord (seed + topBit) i = seedWord seed i ^^^ topBit := by
  have hstep : ∀ x c : BitVec 32, (x + topBit) * 0x1b1 + c = x * 0x1b1 + c + topBit := by
    intro x c
    have h : topBit * 0x1b1 = topBit := by decide
    rw [add_mul, h]
    ring
  rw [← Bits.add_twoPow]
  induction i with
  | zero => exact hstep _ _
  | succ i ih =>
    show seedWord (seed + topBit) i * 0x1b1 + BitVec.ofNat 32 (i + 1) = _
    rw [ih]
    exact hstep _ _

/-- The second word decides the top bit. -/
theorem output_one_add_topBit (seed : BitVec 32) :
    (seedState (seed + topBit)).output 1 = (seedState seed).output 1 + topBit := by
  have hone : ∀ s : XoshiroState, s.output 1 = s.next.s0 + s.next.s3 := fun _ => rfl
  have hmiddle : ∀ a b : BitVec 32, a ^^^ topBit ^^^ (b ^^^ topBit) = a ^^^ b := by
    intro a b
    rw [BitVec.xor_comm b]
    exact XoshiroState.xor_middle a topBit b
  have hfirst : ∀ a b : BitVec 32, a ^^^ topBit ^^^ b = (a ^^^ b) + topBit := by
    intro a b
    rw [Bits.add_twoPow, BitVec.xor_assoc, BitVec.xor_comm topBit, ← BitVec.xor_assoc]
  rw [hone, hone, XoshiroState.next_eq, XoshiroState.next_eq]
  simp only [seedState, seedWord_add_topBit, hmiddle, hfirst]
  ring

/-- **Two words decide the seed.** -/
theorem seed_unique {seed seed' : BitVec 32}
    (h0 : (seedState seed).output 0 = (seedState seed').output 0)
    (h1 : (seedState seed).output 1 = (seedState seed').output 1) : seed = seed' := by
  rw [output_zero, output_zero] at h0
  have hdouble : 2 * (halfFirst seed - halfFirst seed') = 0 := by
    rw [mul_sub, h0, sub_self]
  -- `0xcac8cf09` is the inverse of the factor
  have hinv : (halfFirst seed - halfFirst seed') * 0xcac8cf09 = seed - seed' := by
    have hone : (17576062777 : BitVec 32) * 0xcac8cf09 = 1 := by decide
    unfold halfFirst
    rw [show seed * 17576062777 + 94179 - (seed' * 17576062777 + 94179) =
      (seed - seed') * 17576062777 by ring, mul_assoc, hone, mul_one]
  rcases Bits.two_mul_eq_zero hdouble with hx | hx
  · rw [hx, zero_mul] at hinv
    exact sub_eq_zero.mp hinv.symm
  · have htop : seed = seed' + topBit := by
      rw [hx, show BitVec.twoPow 32 31 * 0xcac8cf09 = topBit by decide] at hinv
      rw [hinv]
      ring
    rw [htop, output_one_add_topBit] at h1
    exact absurd (add_eq_left.mp h1) (by decide)

/-- The first two words are never both zero. -/
theorem outputs_ne_zero (seed : BitVec 32) (h0 : (seedState seed).output 0 = 0) :
    (seedState seed).output 1 ≠ 0 := by
  rw [output_zero] at h0
  have hseed : seed = (halfFirst seed - 94179) * 0xcac8cf09 := by
    have hone : (17576062777 : BitVec 32) * 0xcac8cf09 = 1 := by decide
    unfold halfFirst
    rw [show seed * 17576062777 + 94179 - 94179 = seed * 17576062777 by ring, mul_assoc, hone,
      mul_one]
  rcases Bits.two_mul_eq_zero h0 with hx | hx
  · rw [hx] at hseed
    rw [hseed]
    decide
  · rw [hx] at hseed
    rw [hseed]
    decide

/-! ### The bytes -/

/-- Four bytes are the word. -/
theorem wordBytes_inj {v v' : BitVec 32} (h : ∀ k < 4, wordBytes v k = wordBytes v' k) : v = v' := by
  apply BitVec.eq_of_getLsbD_eq
  intro i hi
  have hbyte := congrArg (fun b : UInt8 => b.toBitVec.getLsbD (i % 8)) (h (i / 8) (by omega))
  simp only [wordBytes_toBitVec, BitVec.getLsbD_extractLsb'] at hbyte
  rw [show 8 * (i / 8) + i % 8 = i by omega, decide_eq_true (by omega : i % 8 < 8)] at hbyte
  simpa using hbyte

/-- What a process can get, at whatever time and under whatever number it runs. -/
def prngFills (buf : Region) (max : ℕ) : Set (List UInt8) :=
  {l | ∃ tvSec pid tvUsec : ℤ, 0 ≤ tvSec ∧ 0 < pid ∧ 0 ≤ tvUsec ∧ tvUsec < 1000000 ∧
    l = bytes (fillPrngRandom tvSec pid tvUsec buf max).1 max}

theorem bytes_fillPrngRandom (tvSec pid tvUsec : ℤ) (buf : Region) (max : ℕ) :
    bytes (fillPrngRandom tvSec pid tvUsec buf max).1 max =
      bytes (seedState (prngSeed tvSec pid tvUsec)).stream max := by
  refine bytes_congr ?_
  intro i hi
  show (fillSeeded (seedState (prngSeed tvSec pid tvUsec)) buf max).buf i = _
  rw [(fillSeeded_eq _ buf max).1, memcpy, if_pos (by omega)]
  simp

/-- Every seed comes up, within a second of some full second. -/
theorem prngSeed_reaches (seed : BitVec 32) : prngSeed (seed.toNat + 0xFFFFFFFF) 1 0 = seed := by
  have hsum : (BitVec.ofInt 32 (seed.toNat + 0xFFFFFFFF) + BitVec.ofInt 32 1) = seed := by
    rw [← BitVec.ofInt_add, add_assoc]
    apply BitVec.eq_of_toNat_eq
    rw [BitVec.toNat_ofInt]
    have hlt := seed.isLt
    omega
  rw [prngSeed, hsum]
  simp

theorem prngFills_eq (buf : Region) (max : ℕ) :
    prngFills buf max = Set.range fun seed => bytes (seedState seed).stream max := by
  ext l
  constructor
  · rintro ⟨tvSec, pid, tvUsec, -, -, -, -, rfl⟩
    exact ⟨prngSeed tvSec pid tvUsec, (bytes_fillPrngRandom ..).symm⟩
  · rintro ⟨seed, rfl⟩
    refine ⟨seed.toNat + 0xFFFFFFFF, 1, 0, by omega, by omega, by omega, by omega, ?_⟩
    rw [bytes_fillPrngRandom, prngSeed_reaches]

/-- The words of the stream, from the bytes. -/
theorem output_eq_of_bytes {s s' : XoshiroState} {max n : ℕ} (hn : 4 * n + 4 ≤ max)
    (h : bytes s.stream max = bytes s'.stream max) : s.output n = s'.output n := by
  apply wordBytes_inj
  intro k hk
  have hbyte : (bytes s.stream max)[4 * n + k]? = (bytes s'.stream max)[4 * n + k]? := by rw [h]
  rw [List.getElem?_eq_getElem (by simp; omega), List.getElem?_eq_getElem (by simp; omega)] at hbyte
  simp only [getElem_bytes, Option.some.injEq, XoshiroState.stream] at hbyte
  rwa [show (4 * n + k) / 4 = n by omega, show (4 * n + k) % 4 = k by omega] at hbyte

theorem stream_injective {max : ℕ} (hmax : 8 ≤ max) :
    Function.Injective fun seed => bytes (seedState seed).stream max :=
  fun _ _ h => seed_unique (output_eq_of_bytes (by omega) h) (output_eq_of_bytes (by omega) h)

/-- The lowest byte of twice a word. -/
theorem lowByte_two_mul (x : BitVec 32) : (lowByte (2 * x)).toNat % 2 = 0 := by
  have h : (lowByte (2 * x)).toNat = (2 * x).toNat % 2 ^ 8 := by
    rw [lowByte, UInt8.toNat_ofBitVec, BitVec.toNat_setWidth]
  have htwo : (2 : BitVec 32).toNat = 2 := rfl
  rw [h, BitVec.toNat_mul, htwo]
  omega

/-- The first byte is even. -/
theorem stream_even (seed : BitVec 32) : ((seedState seed).stream 0).toNat % 2 = 0 := by
  have h : (seedState seed).stream 0 = lowByte ((seedState seed).output 0) := by
    simp [XoshiroState.stream, wordBytes]
  rw [h, output_zero]
  exact lowByte_two_mul _

/-- The first eight bytes are not all zero. -/
theorem stream_ne_zero (seed : BitVec 32) : ∃ i < 8, (seedState seed).stream i ≠ 0 := by
  by_contra hall
  have hzero : ∀ n < 2, (seedState seed).output n = 0 := by
    intro n hn
    apply wordBytes_inj
    intro k hk
    have hbyte : (seedState seed).stream (4 * n + k) = 0 := by
      by_contra h
      exact hall ⟨4 * n + k, by omega, h⟩
    rw [XoshiroState.stream, show (4 * n + k) / 4 = n by omega,
      show (4 * n + k) % 4 = k by omega] at hbyte
    rw [hbyte]
    simp [wordBytes, lowByte]
  exact outputs_ne_zero seed (hzero 0 (by omega)) (hzero 1 (by omega))

theorem ncard_prngFills (buf : Region) {max : ℕ} (hmax : 8 ≤ max) :
    (prngFills buf max).ncard = 2 ^ 32 := by
  rw [prngFills_eq, Set.ncard_range_of_injective (stream_injective hmax)]
  exact Nat.card_eq_of_equiv_fin ⟨BitVec.toFin, BitVec.ofFin, fun _ => rfl, fun _ => rfl⟩

theorem prngFills_head {buf : Region} {max : ℕ} (hmax : 8 ≤ max) {l : List UInt8}
    (hl : l ∈ prngFills buf max) : (l.getD 0 0).toNat % 2 = 0 ∧ l.take 8 ≠ List.replicate 8 0 := by
  rw [prngFills_eq] at hl
  obtain ⟨seed, rfl⟩ := hl
  refine ⟨?_, ?_⟩
  · rw [List.getD_eq_getElem _ _ (by simp; omega), getElem_bytes]
    exact stream_even seed
  · intro h
    obtain ⟨i, hi, hne⟩ := stream_ne_zero seed
    have hbyte := congrArg (fun l : List UInt8 => l[i]?) h
    simp only [List.getElem?_take, List.getElem?_replicate, hi, if_true] at hbyte
    rw [List.getElem?_eq_getElem (by simp; omega)] at hbyte
    exact hne (by simpa using hbyte)

/-- **The fills of the generator**: at least eight bytes long they are as many as there are seeds,
`2 ^ 32`; each starts with an even byte, and none with eight zeros. -/
theorem fillPrngRandom_range (buf : Region) (max : ℕ) (hmax : 8 ≤ max) :
    (prngFills buf max).ncard = 2 ^ 32 ∧
    ∀ l ∈ prngFills buf max, (l.getD 0 0).toNat % 2 = 0 ∧ l.take 8 ≠ List.replicate 8 0 :=
  ⟨ncard_prngFills buf hmax, fun _ hl => prngFills_head hmax hl⟩

theorem fillPrngRandom_range_key : (prngFills (fun _ => 0) 32).ncard = 2 ^ 32 :=
  (fillPrngRandom_range (fun _ => 0) 32 (by decide)).1

end Cryptochan
