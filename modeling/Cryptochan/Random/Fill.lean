import Cryptochan.Random

/-!
# Cryptochan.Random.Fill — `fill_random` over `getrandom` or the generator

`fill_random` asks `fill_random_next` for what is missing until nothing is.  What the kernel answers
is a parameter, one answer for each call; `getrandom` may give less than was asked for, or fail.
Without an answer the loop may not end, so it is given as many rounds as it may take.

The bytes of the answers stand one behind the other in the buffer (`fillRandom_outcome`).
-/

namespace Cryptochan

/-- What the process gets from outside: the time at each `gettimeofday`, its number, and the answer
of `getrandom` to its `i`-th call for `max` bytes. -/
structure HostRandom where
  tvSec : ℕ → ℤ
  tvUsec : ℕ → ℤ
  pid : ℤ
  getrandom : ℕ → ℕ → ℤ × Region

/-- A `getrandom` that gives at least one byte and at most what was asked for, or fails. -/
def HostRandom.Law (host : HostRandom) : Prop :=
  ∀ i max, 0 < max → (host.getrandom i max).1 ≠ 0 ∧ (host.getrandom i max).1 ≤ max

/-- `fill_random_next`, called the `i`-th time. -/
def fillRandomNext (doUsePrng : Bool) (host : HostRandom) (i : ℕ) (buf : Region) (max : ℕ) :
    Region × ℤ :=
  if doUsePrng then
    let r := fillPrngRandom (host.tvSec i) host.pid (host.tvUsec i) buf max
    (r.1, r.2)
  else
    let (n, data) := host.getrandom i max
    (memcpy buf 0 data 0 n.toNat, n)

/-- What `fill_random` leaves: the bytes at `buf`, its result and what it printed, without the reason
that `perror` adds. -/
structure FillReturn where
  buf : Region
  result : ℤ
  stderr : List CString

/-- The loop of `fill_random`, before call `i`; `none` if it has not returned after `rounds`. -/
def fillRandomLoop (doUsePrng : Bool) (host : HostRandom) (max : ℕ) :
    ℕ → ℕ → ℕ → Region → Option FillReturn
  | 0, _, filled, buf => if filled < max then none else some ⟨buf, filled, []⟩
  | rounds + 1, i, filled, buf =>
    if filled < max then
      let (part, n) := fillRandomNext doUsePrng host i (buf.from filled) (max - filled)
      if n < 0 then some ⟨buf.splice filled part, n, [ascii "failed to fill random data"]⟩
      else fillRandomLoop doUsePrng host max rounds (i + 1) (filled + n.toNat)
        (buf.splice filled part)
    else some ⟨buf, filled, []⟩

/-- `fill_random`. -/
def fillRandom (doUsePrng : Bool) (host : HostRandom) (buf : Region) (max rounds : ℕ) :
    Option FillReturn :=
  fillRandomLoop doUsePrng host max rounds 0 0 buf

/-- The bytes of the first `n` answers, each to a call for what was missing. -/
def HostRandom.drawn (host : HostRandom) (max : ℕ) : ℕ → List UInt8
  | 0 => []
  | n + 1 =>
    let soFar := host.drawn max n
    let (k, data) := host.getrandom n (max - soFar.length)
    soFar ++ bytes data k.toNat

/-- The result of call `n`. -/
def HostRandom.answer (host : HostRandom) (max n : ℕ) : ℤ :=
  (host.getrandom n (max - (host.drawn max n).length)).1

/-- After `n` good calls, what is left. -/
structure FillOutcome (host : HostRandom) (buf : Region) (max n : ℕ) (r : FillReturn) : Prop where
  good : ∀ i < n, 0 < host.answer max i
  filled : bytes r.buf (host.drawn max n).length = host.drawn max n
  rest : ∀ j, max ≤ j → r.buf j = buf j
  result : (r.result = max ∧ (host.drawn max n).length = max ∧ r.stderr = []) ∨
    (r.result < 0 ∧ (host.drawn max n).length < max ∧ r.result = host.answer max n ∧
      r.stderr = [ascii "failed to fill random data"])

theorem length_drawn_succ (host : HostRandom) (max n : ℕ) : (host.drawn max (n + 1)).length =
    (host.drawn max n).length + (host.answer max n).toNat := by
  simp [HostRandom.drawn, HostRandom.answer]

theorem splice_from (buf : Region) (off : ℕ) : buf.splice off (buf.from off) = buf := by
  funext i
  unfold Region.splice Region.from
  split_ifs with h
  · rfl
  · rw [Nat.add_sub_cancel' (Nat.not_lt.mp h)]

theorem bytes_memcpy (dst src : Region) (n : ℕ) : bytes (memcpy dst 0 src 0 n) n = bytes src n := by
  refine bytes_congr ?_
  intro i hi
  rw [memcpy, if_pos (by omega)]
  simp

/-- Nothing is missing: the loop is left. -/
theorem fillRandomLoop_full (doUsePrng : Bool) (host : HostRandom) {max filled : ℕ}
    (h : max ≤ filled) (rounds i : ℕ) (buf : Region) :
    fillRandomLoop doUsePrng host max rounds i filled buf = some ⟨buf, filled, []⟩ := by
  cases rounds with
  | zero => rw [fillRandomLoop, if_neg (by omega)]
  | succ rounds => rw [fillRandomLoop, if_neg (by omega)]

/-- The loop, from a buffer with the bytes of the first `i` answers. -/
theorem fillRandomLoop_outcome {host : HostRandom} (law : host.Law) {max : ℕ} {buf0 : Region}
    (rounds i : ℕ) (buf : Region) (hgood : ∀ j < i, 0 < host.answer max j)
    (hlen : (host.drawn max i).length ≤ max)
    (hbytes : bytes buf (host.drawn max i).length = host.drawn max i)
    (hrest : ∀ j, max ≤ j → buf j = buf0 j) (hrounds : max ≤ (host.drawn max i).length + rounds) :
    ∃ n r, fillRandomLoop false host max rounds i (host.drawn max i).length buf = some r ∧
      FillOutcome host buf0 max n r := by
  induction rounds generalizing i buf with
  | zero =>
    refine ⟨i, ⟨buf, (host.drawn max i).length, []⟩, fillRandomLoop_full _ _ (by omega) _ _ _, hgood,
      hbytes, hrest, Or.inl ⟨?_, by omega, rfl⟩⟩
    simp only
    omega
  | succ rounds ih =>
    by_cases hlt : (host.drawn max i).length < max
    · obtain ⟨hne, hle⟩ := law i (max - (host.drawn max i).length) (by omega)
      have hnext : fillRandomNext false host i (buf.from (host.drawn max i).length)
          (max - (host.drawn max i).length) =
            (memcpy (buf.from (host.drawn max i).length) 0
              (host.getrandom i (max - (host.drawn max i).length)).2 0 (host.answer max i).toNat,
              host.answer max i) := rfl
      rw [fillRandomLoop, if_pos hlt, hnext]
      by_cases hneg : host.answer max i < 0
      · refine ⟨i, ⟨buf, host.answer max i, [ascii "failed to fill random data"]⟩, ?_, hgood, hbytes,
          hrest, Or.inr ⟨hneg, hlt, rfl, rfl⟩⟩
        simp only [if_pos hneg, Int.toNat_of_nonpos hneg.le, memcpy_zero, splice_from]
      · have hpos : 0 < host.answer max i := by
          have : host.answer max i ≠ 0 := hne
          omega
        have hsucc := length_drawn_succ host max i
        have hle' : host.answer max i ≤ (max - (host.drawn max i).length : ℕ) := hle
        simp only [if_neg hneg, ← hsucc]
        refine ih (i + 1) _ ?_ (by omega) ?_ ?_ (by omega)
        · intro j hj
          rcases Nat.lt_succ_iff_lt_or_eq.mp hj with h | rfl
          · exact hgood j h
          · exact hpos
        · rw [hsucc, bytes_splice, hbytes, bytes_memcpy]
          rfl
        · intro j hj
          have hge : ¬ j < (host.drawn max i).length := by omega
          rw [Region.splice, if_neg hge, memcpy, if_neg (by omega), Region.from,
            Nat.add_sub_cancel' (by omega)]
          exact hrest j hj
    · refine ⟨i, ⟨buf, (host.drawn max i).length, []⟩, fillRandomLoop_full _ _ (by omega) _ _ _,
        hgood, hbytes, hrest, Or.inl ⟨?_, by omega, rfl⟩⟩
      simp only
      omega

theorem fillRandom_getrandom {host : HostRandom} (law : host.Law) (buf : Region) (max : ℕ) :
    ∃ n r, fillRandom false host buf max max = some r ∧ FillOutcome host buf max n r :=
  fillRandomLoop_outcome law max 0 buf (by simp) (Nat.zero_le _) rfl (fun _ _ => rfl)
    (by simp [HostRandom.drawn])

theorem fillRandom_prng (host : HostRandom) (buf : Region) {max rounds : ℕ} (hmax : 0 < max)
    (hrounds : 0 < rounds) : fillRandom true host buf max rounds =
      some ⟨(fillPrngRandom (host.tvSec 0) host.pid (host.tvUsec 0) buf max).1, max, []⟩ := by
  obtain ⟨rounds, rfl⟩ := Nat.exists_eq_succ_of_ne_zero (by omega : rounds ≠ 0)
  have hfrom : buf.from 0 = buf := funext fun k => congrArg buf (Nat.zero_add k)
  have hsplice : ∀ r : Region, buf.splice 0 r = r := fun r =>
    funext fun k => if_neg (Nat.not_lt_zero k)
  obtain ⟨state, -, hfill⟩ := fillPrngRandom_eq (host.tvSec 0) host.pid (host.tvUsec 0) buf max
  rw [fillRandom, fillRandomLoop, if_pos hmax, hfrom, fillRandomNext, if_pos rfl, Nat.sub_zero, hfill]
  have hpos : ¬ (max : ℤ) < 0 := by omega
  simp only [if_neg hpos, hsplice, Int.toNat_natCast, Nat.zero_add]
  exact fillRandomLoop_full _ _ (Nat.le_refl max) _ _ _

/-- **What `fill_random` gives**: with `getrandom` it returns after at most `max` calls.  The bytes of
the answers stand one behind the other from the start of the buffer on, and nothing is written behind
`max`.  It returns `max` when they fill the buffer, and otherwise what the first call that failed
returned.  With the generator one call does it. -/
theorem fillRandom_outcome (host : HostRandom) (law : host.Law) (buf : Region) (max : ℕ) :
    (∃ n r, fillRandom false host buf max max = some r ∧ FillOutcome host buf max n r) ∧
    (∀ rounds, 0 < max → 0 < rounds → fillRandom true host buf max rounds =
      some ⟨(fillPrngRandom (host.tvSec 0) host.pid (host.tvUsec 0) buf max).1, max, []⟩) :=
  ⟨fillRandom_getrandom law buf max, fun _ hmax hrounds => fillRandom_prng host buf hmax hrounds⟩

/-- A kernel that gives two bytes at most, then fails. -/
def shortHost : HostRandom where
  tvSec _ := 0
  tvUsec _ := 0
  pid := 1
  getrandom i max := if i < 2 then ((min 2 max : ℕ), fun _ => 5) else (-1, fun _ => 0)

theorem shortHost_law : shortHost.Law := by
  intro i max hmax
  simp only [shortHost]
  split_ifs
  · simp only
    omega
  · simp only
    omega

theorem fillRandom_outcome_shortHost : ∃ n r,
    fillRandom false shortHost (fun _ => 0) 5 5 = some r ∧
      FillOutcome shortHost (fun _ => 0) 5 n r :=
  (fillRandom_outcome shortHost shortHost_law (fun _ => 0) 5).1

end Cryptochan
