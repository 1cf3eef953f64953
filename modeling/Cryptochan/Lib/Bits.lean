import Mathlib.Data.BitVec
import Mathlib.Dynamics.PeriodicPts.Lemmas
import Mathlib.Tactic.Common

/-!
# Cryptochan.Lib.Bits — invertible operations on words, and their orbits

A linear generator is made of XORs, shifts and rotations of words.  Here: XOR with a left shift of
itself and rotation are injective on words of any width, and the top bit is added without a carry.
An injective step on a finite set of states only has cycles, no tails (`iterate_returns`,
`period_of_later`).
-/

namespace Bits

variable {w : ℕ}

/-- Bit `i` of the result and the lower bits of `x` give bit `i` of `x`. -/
theorem injective_xor_shiftLeft {n : ℕ} (hn : 0 < n) :
    Function.Injective fun x : BitVec w => x ^^^ x <<< n := by
  intro x y hxy
  have hbit : ∀ i < w, x.getLsbD i = y.getLsbD i := by
    intro i
    induction i using Nat.strong_induction_on with
    | _ i ih =>
      intro hi
      have h : (x ^^^ x <<< n).getLsbD i = (y ^^^ y <<< n).getLsbD i :=
        congrArg (fun v : BitVec w => v.getLsbD i) hxy
      rw [BitVec.getLsbD_xor, BitVec.getLsbD_xor, BitVec.getLsbD_shiftLeft,
        BitVec.getLsbD_shiftLeft] at h
      by_cases hin : i < n
      · simpa [hin] using h
      · rw [ih (i - n) (by omega) (by omega)] at h
        exact Bool.xor_left_inj.mp h
  exact BitVec.eq_of_getLsbD_eq hbit

/-- A rotation, as it is written with two shifts. -/
theorem injective_shift_or_shift {n : ℕ} (hn : n ≤ w) :
    Function.Injective fun x : BitVec w => x <<< n ||| x >>> (w - n) := by
  intro x y hxy
  have hbit : ∀ j, (x <<< n ||| x >>> (w - n)).getLsbD j = (y <<< n ||| y >>> (w - n)).getLsbD j :=
    fun j => congrArg (fun v : BitVec w => v.getLsbD j) hxy
  apply BitVec.eq_of_getLsbD_eq
  intro i hi
  by_cases hlow : i < w - n
  · -- bit `i` has gone up to `i + n`
    have h := hbit (i + n)
    have hx : x.getLsbD (w - n + (i + n)) = false := BitVec.getLsbD_of_ge _ _ (by omega)
    have hy : y.getLsbD (w - n + (i + n)) = false := BitVec.getLsbD_of_ge _ _ (by omega)
    rw [BitVec.getLsbD_eq_getElem hi, BitVec.getLsbD_eq_getElem hi]
    simpa [show i + n < w by omega, hx, hy] using h
  · -- bit `i` has come down to `i - (w - n)`
    have h := hbit (i - (w - n))
    have hlt : i - (w - n) < n := by omega
    simpa [hlt, show w - n + (i - (w - n)) = i by omega] using h

/-! ### The top bit -/

/-- Twice a word leaves its top bit open. -/
theorem two_mul_eq_zero {x : BitVec (w + 1)} (h : 2 * x = 0) :
    x = 0 ∨ x = BitVec.twoPow (w + 1) w := by
  have hx : 2 * x.toNat % 2 ^ (w + 1) = 0 := by
    have := congrArg BitVec.toNat h
    simpa [BitVec.toNat_mul] using this
  have hlt := x.isLt
  have hpow : 2 ^ (w + 1) = 2 * 2 ^ w := Nat.pow_succ'
  rw [hpow, Nat.mul_mod_mul_left] at hx
  rw [hpow] at hlt
  obtain ⟨k, hk⟩ := Nat.dvd_of_mod_eq_zero (show x.toNat % 2 ^ w = 0 by omega)
  have hk2 : k < 2 := by
    by_contra hge
    have := Nat.mul_le_mul_left (2 ^ w) (show 2 ≤ k by omega)
    omega
  rcases (by omega : k = 0 ∨ k = 1) with rfl | rfl
  · exact Or.inl (BitVec.eq_of_toNat_eq (by rw [hk]; rfl))
  · refine Or.inr (BitVec.eq_of_toNat_eq ?_)
    rw [hk, BitVec.toNat_twoPow, Nat.mod_eq_of_lt (by omega), Nat.mul_one]

/-- The top bit has no carry. -/
theorem add_twoPow (x : BitVec (w + 1)) :
    x + BitVec.twoPow (w + 1) w = x ^^^ BitVec.twoPow (w + 1) w := by
  have hcarry : ∀ i ≤ w, BitVec.carry i x (BitVec.twoPow (w + 1) w) false = false := by
    intro i
    induction i with
    | zero => exact fun _ => BitVec.carry_zero
    | succ i ih =>
      intro hi
      rw [BitVec.carry_succ, ih (by omega), BitVec.getLsbD_twoPow]
      simp [Bool.atLeastTwo, show ¬ w = i by omega]
  apply BitVec.eq_of_getLsbD_eq
  intro i hi
  rw [BitVec.getLsbD_add hi, hcarry i (by omega), BitVec.getLsbD_xor, Bool.xor_false]
/-! ### Orbits of an injective step -/

section Orbit

variable {σ : Type*} {f : σ → σ}

/-- The orbit of `x` comes back to `x`, and from there repeats. -/
theorem iterate_returns [Finite σ] (hf : Function.Injective f) (x : σ) :
    ∃ p, 0 < p ∧ ∀ n, f^[n + p] x = f^[n] x := by
  obtain ⟨p, hp, hx⟩ := Function.mem_periodicPts.mp (hf.mem_periodicPts x)
  refine ⟨p, hp, ?_⟩
  intro n
  rw [Function.iterate_add_apply, hx]

/-- A cycle that the orbit of `x` runs into goes through `x`. -/
theorem period_of_later (hf : Function.Injective f) {x : σ} {n q : ℕ}
    (h : f^[q] (f^[n] x) = f^[n] x) : f^[q] x = x := by
  apply hf.iterate n
  rw [← Function.iterate_add_apply, Nat.add_comm, Function.iterate_add_apply]
  exact h

/-- Only the fixed point itself ever reaches it. -/
theorem iterate_ne_fixed (hf : Function.Injective f) {z x : σ} (hz : f z = z) (hx : x ≠ z) (n : ℕ) :
    f^[n] x ≠ z := by
  intro h
  apply hx
  apply hf.iterate n
  rw [h, Function.iterate_fixed hz]

end Orbit

end Bits
