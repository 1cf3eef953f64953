import Mathlib.Data.Nat.ModEq
import Mathlib.Logic.Function.Basic
import Mathlib.Tactic.Common

/-!
# Cryptochan.Machine — 32-bit counters, memory regions and strings

The fields of the buffer and of the queue are `uint32_t`.  They are natural numbers here, and every
machine operation on them reduces its result modulo `2 ^ 32`.  A pointer to data is the `Region` it
points at: the byte at every offset.  `NULL` is `none` in an `Option Region`.  A string is the list
of its bytes before the terminating NUL.
-/

namespace Cryptochan

/-- `UINT32_MAX`. -/
def uint32Max : ℕ := 0xFFFFFFFF

def u32Add (a b : ℕ) : ℕ := (a + b) % 2 ^ 32

def u32Sub (a b : ℕ) : ℕ := (a + (2 ^ 32 - b % 2 ^ 32)) % 2 ^ 32

def u32Mul (a b : ℕ) : ℕ := a * b % 2 ^ 32

/-- Conversion of a signed value to `uint32_t`. -/
def u32OfInt (z : ℤ) : ℕ := (z % 2 ^ 32).toNat

theorem u32Add_eq {a b : ℕ} (h : a + b < 2 ^ 32) : u32Add a b = a + b := Nat.mod_eq_of_lt h

theorem u32Sub_eq {a b : ℕ} (ha : a < 2 ^ 32) (hb : b ≤ a) : u32Sub a b = a - b := by
  unfold u32Sub
  rw [Nat.mod_eq_of_lt (lt_of_le_of_lt hb ha),
    show a + (2 ^ 32 - b) = a - b + 2 ^ 32 by omega, Nat.add_mod_right,
    Nat.mod_eq_of_lt (lt_of_le_of_lt (Nat.sub_le a b) ha)]

theorem u32Sub_self (a : ℕ) : u32Sub a a = 0 := by
  have hlt := Nat.mod_lt a (show 0 < 2 ^ 32 by decide)
  unfold u32Sub
  rw [← Nat.mod_add_mod, show a % 2 ^ 32 + (2 ^ 32 - a % 2 ^ 32) = 2 ^ 32 by omega, Nat.mod_self]

theorem u32Mul_eq {a b : ℕ} (h : a * b < 2 ^ 32) : u32Mul a b = a * b := Nat.mod_eq_of_lt h

/-- What a pointer points at: the byte at every offset. -/
abbrev Region := ℕ → UInt8

/-- `memcpy(dst + d, src + s, n)` between two regions. -/
def memcpy (dst : Region) (d : ℕ) (src : Region) (s n : ℕ) : Region :=
  fun i => if d ≤ i ∧ i < d + n then src (s + (i - d)) else dst i

theorem memcpy_zero (dst : Region) (d : ℕ) (src : Region) (s : ℕ) : memcpy dst d src s 0 = dst := by
  funext i
  rw [memcpy, if_neg (by omega)]

theorem memcpy_congr {src src' : Region} {s s' n : ℕ} (h : ∀ k < n, src (s + k) = src' (s' + k))
    (dst : Region) (d : ℕ) : memcpy dst d src s n = memcpy dst d src' s' n := by
  funext i
  unfold memcpy
  split_ifs with hi
  · exact h _ (by omega)
  · rfl

/-- Two copies that meet are one. -/
theorem memcpy_memcpy (dst : Region) (d : ℕ) (src : Region) (s m n : ℕ) :
    memcpy (memcpy dst d src s m) (d + m) src (s + m) n = memcpy dst d src s (m + n) := by
  funext i
  unfold memcpy
  by_cases h2 : d + m ≤ i ∧ i < d + m + n
  · rw [if_pos h2, if_pos (by omega)]
    congr 1; omega
  · rw [if_neg h2]
    by_cases h1 : d ≤ i ∧ i < d + m
    · rw [if_pos h1, if_pos (by omega)]
    · rw [if_neg h1, if_neg (by omega)]

/-- The first `n` bytes of a region. -/
def bytes (r : Region) (n : ℕ) : List UInt8 := (List.range n).map r

@[simp] theorem length_bytes (r : Region) (n : ℕ) : (bytes r n).length = n := by simp [bytes]

@[simp] theorem bytes_zero (r : Region) : bytes r 0 = [] := rfl

theorem bytes_succ (r : Region) (n : ℕ) : bytes r (n + 1) = bytes r n ++ [r n] := by
  simp [bytes, List.range_succ]

@[simp] theorem getElem_bytes (r : Region) (n i : ℕ) (h : i < (bytes r n).length) :
    (bytes r n)[i] = r i := by simp [bytes]

theorem bytes_congr {r r' : Region} {n : ℕ} (h : ∀ i < n, r i = r' i) : bytes r n = bytes r' n :=
  List.map_congr_left fun i hi => h i (List.mem_range.mp hi)

/-- Storing the byte behind the first `k`. -/
theorem bytes_update (r : Region) (k : ℕ) (a : UInt8) :
    bytes (Function.update r k a) (k + 1) = bytes r k ++ [a] := by
  rw [bytes_succ, Function.update_self]
  congr 1
  exact bytes_congr fun i hi => Function.update_of_ne (by omega) _ _

/-! ### Pointers into a region -/

/-- `buf + off`, as long as nobody writes to it. -/
def Region.from (buf : Region) (off : ℕ) : Region := fun k => buf (off + k)

/-- `buf` when `r` is what `buf + off` points at. -/
def Region.splice (buf : Region) (off : ℕ) (r : Region) : Region :=
  fun i => if i < off then buf i else r (i - off)

theorem bytes_add (r : Region) (a b : ℕ) : bytes r (a + b) = bytes r a ++ bytes (r.from a) b := by
  simp [bytes, List.range_add, Region.from]

theorem bytes_splice (buf r : Region) (off n : ℕ) :
    bytes (buf.splice off r) (off + n) = bytes buf off ++ bytes r n := by
  refine List.ext_getElem (by simp) ?_
  intro i h1 h2
  rw [getElem_bytes, List.getElem_append]
  unfold Region.splice
  split_ifs with hi h3 h3
  · rw [getElem_bytes]
  · exact absurd hi (by simpa using h3)
  · exact absurd (by simpa using h3) hi
  · simp

/-- A `char *`: the bytes before the NUL. -/
abbrev CString := List UInt8

/-- A string literal of the source. -/
def ascii (s : String) : CString := s.toList.map fun c => c.toNat.toUInt8

/-- `%d` and `%ld` of a natural number. -/
def decimal (n : ℕ) : CString := ascii (toString n)

end Cryptochan
