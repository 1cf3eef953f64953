import Mathlib.Data.List.TakeWhile
import Mathlib.Data.Nat.Digits.Lemmas

/-!
# Cryptochan.Lib.Radix — numerals with leading zeros

A numeral to the base `b` is the list of its digits, the highest first.  It is determined by the
number of its leading zeros and its value (`numeral_value`); every pair is the pair of one numeral
(`zeros_numeral`, `value_numeral`).  So a numeral can be rewritten to another base keeping both, and
back (`transcode_transcode`).
-/

namespace Radix

variable {b c z n : ℕ} {ds : List ℕ}

/-- The value of a numeral, highest digit first. -/
def value (b : ℕ) (ds : List ℕ) : ℕ := Nat.ofDigits b ds.reverse

/-- The number of leading zeros. -/
def zeros (ds : List ℕ) : ℕ := (ds.takeWhile (· = 0)).length

/-- The numeral with `z` leading zeros and the value `n`. -/
def numeral (b z n : ℕ) : List ℕ := List.replicate z 0 ++ (Nat.digits b n).reverse

/-- The same number of leading zeros and the same value, to another base. -/
def transcode (b c : ℕ) (ds : List ℕ) : List ℕ := numeral c (zeros ds) (value b ds)

theorem value_cons (b d : ℕ) (ds : List ℕ) : value b (d :: ds) = d * b ^ ds.length + value b ds := by
  rw [value, List.reverse_cons, Nat.ofDigits_append, Nat.ofDigits_singleton, List.length_reverse,
    value, Nat.mul_comm, Nat.add_comm]

theorem value_replicate_append (b z : ℕ) (ds : List ℕ) :
    value b (List.replicate z 0 ++ ds) = value b ds := by
  rw [value, List.reverse_append, List.reverse_replicate, Nat.ofDigits_append_replicate_zero, value]

@[simp] theorem value_numeral : value b (numeral b z n) = n := by
  rw [numeral, value_replicate_append, value, List.reverse_reverse, Nat.ofDigits_digits]

theorem value_lt (hb : 1 < b) (h : ∀ d ∈ ds, d < b) : value b ds < b ^ ds.length := by
  have hlt := Nat.ofDigits_lt_base_pow_length hb (l := ds.reverse) fun d hd =>
    h d (List.mem_reverse.mp hd)
  rwa [List.length_reverse] at hlt

theorem numeral_lt (hb : 1 < b) : ∀ d ∈ numeral b z n, d < b := by
  intro d hd
  rcases List.mem_append.mp hd with hd | hd
  · obtain ⟨-, rfl⟩ := List.mem_replicate.mp hd
    omega
  · exact Nat.digits_lt_base hb (List.mem_reverse.mp hd)

/-- The leading zeros and the rest. -/
theorem replicate_zeros_append (ds : List ℕ) :
    List.replicate (zeros ds) 0 ++ ds.dropWhile (· = 0) = ds := by
  have h : ds.takeWhile (· = 0) = List.replicate (zeros ds) 0 := by
    refine List.eq_replicate_iff.mpr ⟨rfl, ?_⟩
    intro d hd
    simpa using List.mem_takeWhile_imp hd
  rw [← h]
  exact List.takeWhile_append_dropWhile

/-- A numeral is determined by its leading zeros and its value. -/
theorem numeral_value (hb : 1 < b) (h : ∀ d ∈ ds, d < b) : numeral b (zeros ds) (value b ds) = ds := by
  have hrest : (Nat.digits b (value b ds)).reverse = ds.dropWhile (· = 0) := by
    conv_lhs => rw [← replicate_zeros_append ds]
    rw [value_replicate_append, value, Nat.digits_ofDigits b hb, List.reverse_reverse]
    · intro d hd
      exact h d ((List.dropWhile_sublist _).mem (List.mem_reverse.mp hd))
    · intro hne
      have hne' : ds.dropWhile (· = 0) ≠ [] := fun he => hne (by rw [he]; rfl)
      rw [List.getLast_reverse]
      simpa using List.head_dropWhile_not (fun d : ℕ => decide (d = 0)) hne'
  rw [numeral, hrest, replicate_zeros_append]

@[simp] theorem zeros_numeral : zeros (numeral b z n) = z := by
  have hlead : zeros ((Nat.digits b n).reverse) = 0 := by
    rcases Nat.eq_zero_or_pos n with rfl | hn
    · simp [zeros]
    · obtain ⟨d, ds, hds⟩ : ∃ d ds, (Nat.digits b n).reverse = d :: ds := by
        apply List.exists_cons_of_ne_nil
        intro he
        exact Nat.digits_ne_nil_iff_ne_zero.mpr hn.ne' (List.reverse_eq_nil_iff.mp he)
      have hd : d ≠ 0 := by
        have hlast := Nat.getLast_digit_ne_zero b hn.ne'
        have e : (Nat.digits b n).getLast (Nat.digits_ne_nil_iff_ne_zero.mpr hn.ne') = d := by
          rw [List.getLast_eq_head_reverse]
          simp [hds]
        rwa [e] at hlast
      simp [zeros, hds, hd]
  unfold zeros at hlead ⊢
  rw [numeral, List.takeWhile_append_of_pos (by simp), List.length_append, List.length_replicate,
    hlead, Nat.add_zero]

theorem length_numeral : (numeral b z n).length = z + (Nat.digits b n).length := by
  simp [numeral]

/-- The digits behind the leading zeros. -/
theorem length_eq (hb : 1 < b) (h : ∀ d ∈ ds, d < b) :
    ds.length = zeros ds + (Nat.digits b (value b ds)).length := by
  conv_lhs => rw [← numeral_value hb h]
  exact length_numeral

theorem value_lt_of_zeros (hb : 1 < b) (h : ∀ d ∈ ds, d < b) :
    value b ds < b ^ (ds.length - zeros ds) := by
  rw [← Nat.digits_length_le_iff hb]
  have := length_eq hb h
  omega

/-- Dropping leading zeros. -/
theorem drop_numeral (m : ℕ) : (numeral b (m + z) n).drop m = numeral b z n := by
  rw [numeral, List.replicate_add, List.append_assoc, List.drop_left' (by simp), numeral]

/-! ### Change of base -/

theorem transcode_lt (hc : 1 < c) : ∀ d ∈ transcode b c ds, d < c := numeral_lt hc

theorem transcode_transcode (hb : 1 < b) (h : ∀ d ∈ ds, d < b) :
    transcode c b (transcode b c ds) = ds := by
  rw [transcode, transcode, zeros_numeral, value_numeral, numeral_value hb h]

/-- How long a numeral becomes in the other base. -/
theorem length_transcode_le (hb : 1 < b) (hc : 1 < c) (h : ∀ d ∈ ds, d < b) {L : ℕ}
    (hL : ∀ m ≤ ds.length, b ^ m ≤ c ^ (m + L)) : (transcode b c ds).length ≤ ds.length + L := by
  have hv := value_lt_of_zeros hb h
  have hz := length_eq hb h
  have hlt := hv.trans_le (hL (ds.length - zeros ds) (Nat.sub_le _ _))
  rw [← Nat.digits_length_le_iff hc] at hlt
  rw [transcode, length_numeral]
  omega

end Radix
