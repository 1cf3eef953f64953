import Mathlib.Data.List.Basic
import Mathlib.Data.Nat.ModEq
import Mathlib.Order.Basic
import Mathlib.Logic.Function.Basic
import Mathlib.Tactic.Common

/-!
# Cryptochan.Lib.Circular — lists held in a circular array

A circular array of `N` cells is a function `cells : ℕ → α`; the cell of the *absolute position*
`p` is `cells (p % N)`.  `Holds cells N p xs`: the cells from position `p` on hold the list `xs`.
A list of length at most `N` is stored without overlap, so it can be extended at its end and
shortened at its front.

`Staged cells N rd xs ys` is the invariant of a two-stage pipeline through one array: `ys` is
everything ever put in, `xs` everything ever converted in place (a shorter stream), and the array
holds the converted values not yet released, followed by the raw values not yet converted.
-/

namespace Circular

variable {α : Type*} {cells cells' : ℕ → α} {N p rd : ℕ} {xs ys : List α}

/-- The cells from absolute position `p` on hold the list `xs`. -/
def Holds (cells : ℕ → α) (N p : ℕ) (xs : List α) : Prop :=
  ∀ i (h : i < xs.length), cells ((p + i) % N) = xs[i]

/-! ### Positions -/

/-- Two positions less than a full turn apart share a cell only if they are equal. -/
theorem eq_of_mod_eq {a b : ℕ} (hab : a ≤ b) (hlt : b < a + N) (h : a % N = b % N) : a = b := by
  have hd : N ∣ b - a := (Nat.modEq_iff_dvd' hab).mp h
  obtain ⟨k, hk⟩ := hd
  rcases Nat.eq_zero_or_pos k with rfl | hk0
  · simp at hk; omega
  · have : N ≤ N * k := Nat.le_mul_of_pos_right N hk0
    omega

theorem slot_ne {a b : ℕ} (hne : a ≠ b) (h1 : a < b + N) (h2 : b < a + N) : a % N ≠ b % N := by
  intro h
  rcases Nat.le_total a b with hab | hba
  · exact hne (eq_of_mod_eq hab h2 h)
  · exact hne (eq_of_mod_eq hba h1 h.symm).symm

/-- `(a + k) % N` without division, for an index and a step of at most one turn. -/
theorem add_mod_of_le {a k : ℕ} (ha : a < N) (hk : k ≤ N) :
    (a + k) % N = if a + k < N then a + k else a + k - N := by
  split_ifs with h
  · exact Nat.mod_eq_of_lt h
  · rw [Nat.mod_eq_sub_mod (by omega), Nat.mod_eq_of_lt (by omega)]

/-! ### Lists in the array -/

@[simp] theorem holds_nil : Holds cells N p ([] : List α) := fun _ h => absurd h (by simp)

theorem holds_mod : Holds cells N (p % N) xs ↔ Holds cells N p xs := by
  unfold Holds
  simp only [Nat.mod_add_mod]

theorem Holds.congr (h : Holds cells N p xs)
    (hc : ∀ i, i < xs.length → cells' ((p + i) % N) = cells ((p + i) % N)) :
    Holds cells' N p xs := fun i hi => (hc i hi).trans (h i hi)

theorem holds_append :
    Holds cells N p (xs ++ ys) ↔ Holds cells N p xs ∧ Holds cells N (p + xs.length) ys := by
  constructor
  · intro h
    refine ⟨?_, ?_⟩
    · intro i hi
      rw [h i (by simp; omega), List.getElem_append_left hi]
    · intro i hi
      have := h (xs.length + i) (by simp; omega)
      rw [← Nat.add_assoc] at this
      rw [this, List.getElem_append_right (by omega)]
      simp
  · rintro ⟨h1, h2⟩ i hi
    by_cases hx : i < xs.length
    · rw [List.getElem_append_left hx, h1 i hx]
    · have hy : i - xs.length < ys.length := by simp at hi; omega
      rw [List.getElem_append_right (by omega), ← h2 _ hy]
      congr 2; omega

theorem Holds.drop (h : Holds cells N p xs) {n : ℕ} (hn : n ≤ xs.length) :
    Holds cells N (p + n) (xs.drop n) := by
  rw [← List.take_append_drop n xs, holds_append] at h
  simpa [List.length_take, Nat.min_eq_left hn] using h.2

/-- The list is what the cells say. -/
theorem Holds.eq_map (h : Holds cells N p xs) :
    xs = (List.range xs.length).map fun i => cells ((p + i) % N) := by
  refine List.ext_getElem (by simp) ?_
  intro i hi _
  simp [h i hi]

/-- The cell behind the last one extends the list. -/
theorem Holds.concat (h : Holds cells N p xs) {a : α} (ha : cells ((p + xs.length) % N) = a) :
    Holds cells N p (xs ++ [a]) := by
  rw [holds_append]
  refine ⟨h, ?_⟩
  intro i hi
  obtain rfl : i = 0 := by simpa using hi
  exact ha

/-- The list without its first element begins one cell later. -/
theorem Holds.tail (h : Holds cells N p xs) : Holds cells N ((p + 1) % N) xs.tail := by
  rw [holds_mod]
  intro i hi
  rw [List.length_tail] at hi
  rw [Nat.add_assoc, Nat.add_comm 1, h (i + 1) (by omega), List.getElem_tail]

/-! ### Two-stage pipelines -/

/-- `ys` was put in, its beginning was converted to `xs`, positions below `rd` were released. -/
structure Staged (cells : ℕ → α) (N rd : ℕ) (xs ys : List α) : Prop where
  released : rd ≤ xs.length
  converted : xs.length ≤ ys.length
  room : ys.length ≤ rd + N
  ready : ∀ i (h : i < xs.length), rd ≤ i → cells (i % N) = xs[i]
  raw : ∀ i (h : i < ys.length), xs.length ≤ i → cells (i % N) = ys[i]

namespace Staged

theorem empty (cells : ℕ → α) (N : ℕ) : Staged cells N 0 [] [] :=
  ⟨by simp, by simp, by simp, fun _ h => absurd h (by simp), fun _ h => absurd h (by simp)⟩

/-- The held part as one list. -/
theorem holds (h : Staged cells N rd xs ys) :
    Holds cells N rd (xs.drop rd ++ ys.drop xs.length) := by
  have h1 := h.released
  have h2 := h.converted
  rw [holds_append]
  refine ⟨?_, ?_⟩
  · intro i hi
    rw [List.length_drop] at hi
    rw [h.ready (rd + i) (by omega) (by omega), List.getElem_drop]
  · intro i hi
    rw [List.length_drop] at hi
    have hlen : rd + (xs.drop rd).length = xs.length := by rw [List.length_drop]; omega
    rw [hlen, h.raw (xs.length + i) (by omega) (by omega), List.getElem_drop]

/-- Put: a free cell takes the next raw value. -/
theorem put (h : Staged cells N rd xs ys) (hroom : ys.length < rd + N) (a : α) :
    Staged (Function.update cells (ys.length % N) a) N rd xs (ys ++ [a]) := by
  have h1 := h.released
  have h2 := h.converted
  refine ⟨h1, by simp; omega, by simp; omega, ?_, ?_⟩
  · intro i hi hr
    rw [Function.update_of_ne (slot_ne (by omega) (by omega) (by omega)), h.ready i hi hr]
  · intro i hi hx
    by_cases hy : i < ys.length
    · rw [Function.update_of_ne (slot_ne (by omega) (by omega) (by omega)), h.raw i hy hx,
        List.getElem_append_left hy]
    · obtain rfl : i = ys.length := by simp at hi; omega
      simp

/-- Adopt: the next `n` free cells count as put, with whatever they contain. -/
theorem adopt (h : Staged cells N rd xs ys) {n : ℕ} (hroom : ys.length + n ≤ rd + N) :
    Staged cells N rd xs (ys ++ (List.range n).map fun k => cells ((ys.length + k) % N)) := by
  refine ⟨h.released, by have := h.converted; simp; omega, by simpa using hroom, h.ready,
    fun i hi hx => ?_⟩
  by_cases hy : i < ys.length
  · rw [h.raw i hy hx, List.getElem_append_left hy]
  · rw [List.getElem_append_right (by omega)]
    simp only [List.getElem_map, List.getElem_range]
    congr 2; omega

/-- Convert: the first raw value is replaced, in its cell, by the next converted one. -/
theorem convert (h : Staged cells N rd xs ys) (hlt : xs.length < ys.length) (a : α) :
    Staged (Function.update cells (xs.length % N) a) N rd (xs ++ [a]) ys := by
  have h1 := h.released
  have h3 := h.room
  refine ⟨by simp; omega, by simp; omega, h3, ?_, ?_⟩
  · intro i hi hr
    by_cases hy : i < xs.length
    · rw [Function.update_of_ne (slot_ne (by omega) (by omega) (by omega)), h.ready i hy hr,
        List.getElem_append_left hy]
    · obtain rfl : i = xs.length := by simp at hi; omega
      simp
  · intro i hi hx
    simp at hx
    rw [Function.update_of_ne (slot_ne (by omega) (by omega) (by omega)), h.raw i hi (by omega)]

/-- Keep: the first `n` raw values are taken over as they are. -/
theorem keep (h : Staged cells N rd xs ys) {n : ℕ} (hn : xs.length + n ≤ ys.length) :
    Staged cells N rd (xs ++ (ys.drop xs.length).take n) ys := by
  have h1 := h.released
  have hlen : (xs ++ (ys.drop xs.length).take n).length = xs.length + n := by simp; omega
  refine ⟨by omega, by omega, h.room, ?_, ?_⟩
  · intro i hi hr
    by_cases hx : i < xs.length
    · rw [h.ready i hx hr, List.getElem_append_left hx]
    · rw [h.raw i (by omega) (by omega), List.getElem_append_right (by omega), List.getElem_take,
        List.getElem_drop]
      congr 1; omega
  · intro i hi hx
    exact h.raw i hi (by omega)

/-- Release: the first converted values leave the array. -/
theorem release (h : Staged cells N rd xs ys) {n : ℕ} (hn : rd + n ≤ xs.length) :
    Staged cells N (rd + n) xs ys :=
  ⟨hn, h.converted, by have := h.room; omega, fun i hi hr => h.ready i hi (by omega), h.raw⟩

end Staged

end Circular
