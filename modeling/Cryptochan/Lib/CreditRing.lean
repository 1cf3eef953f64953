import Mathlib.Data.Nat.ModEq
import Mathlib.Logic.Function.Basic
import Mathlib.Tactic.Common
import Mathlib.Tactic.SplitIfs

/-!
# Cryptochan.Lib.CreditRing — stages passing credit round a ring

Stages `i : ι` stand in a ring, `prev i` being the one that feeds `i`.  Every stage owns an index
into a circular array of `N` cells and a counter (`credit`) of the cells it may work on.  One round
of stage `i`:

* `claim`: it reads its counter and takes some `n` of the cells (nothing shared changes);
* `move`: it advances its index by `n`;
* `pass`: it adds `n` to the counter of the next stage;
* `release`: it subtracts `n` from its own counter, or `forget`: it resets its own counter to `0`.

Between `pass` and `release` the `n` cells are counted twice.  `Ledger` is the invariant: with
`pos i` the number of cells passed on by `i` so far, every counter is exact up to that double
count and up to what earlier `forget`s threw away (`leak`), every claim is covered, and every index
is the position modulo `N`.
-/

namespace CreditRing

variable {ι : Type*}

/-- Where a stage is in its round. -/
inductive Phase
  | idle
  | claim (n : ℕ)
  | moved (n : ℕ)
  | passed (n : ℕ)
  deriving DecidableEq, Repr

namespace Phase

/-- Cells claimed and not yet passed on. -/
def held : Phase → ℕ
  | claim n | moved n => n
  | _ => 0

/-- How far the index is ahead of the position. -/
def ahead : Phase → ℕ
  | moved n => n
  | _ => 0

/-- Cells passed on and still in the stage's own counter. -/
def owed : Phase → ℕ
  | passed n => n
  | _ => 0

/-- The number of cells of the round. -/
def size : Phase → ℕ
  | idle => 0
  | claim n | moved n | passed n => n

@[simp] theorem held_idle : idle.held = 0 := rfl
@[simp] theorem held_claim (n : ℕ) : (claim n).held = n := rfl
@[simp] theorem held_moved (n : ℕ) : (moved n).held = n := rfl
@[simp] theorem held_passed (n : ℕ) : (passed n).held = 0 := rfl
@[simp] theorem ahead_idle : idle.ahead = 0 := rfl
@[simp] theorem ahead_claim (n : ℕ) : (claim n).ahead = 0 := rfl
@[simp] theorem ahead_moved (n : ℕ) : (moved n).ahead = n := rfl
@[simp] theorem ahead_passed (n : ℕ) : (passed n).ahead = 0 := rfl
@[simp] theorem owed_idle : idle.owed = 0 := rfl
@[simp] theorem owed_claim (n : ℕ) : (claim n).owed = 0 := rfl
@[simp] theorem owed_moved (n : ℕ) : (moved n).owed = 0 := rfl
@[simp] theorem owed_passed (n : ℕ) : (passed n).owed = n := rfl
@[simp] theorem size_idle : idle.size = 0 := rfl
@[simp] theorem size_claim (n : ℕ) : (claim n).size = n := rfl
@[simp] theorem size_moved (n : ℕ) : (moved n).size = n := rfl
@[simp] theorem size_passed (n : ℕ) : (passed n).size = n := rfl

theorem owed_le_size (p : Phase) : p.owed ≤ p.size := by cases p <;> simp

end Phase

/-- The counters and indices, the phases, and the ghost positions and leaks. -/
@[ext] structure State (ι : Type*) where
  credit : ι → ℕ
  index : ι → ℕ
  phase : ι → Phase
  pos : ι → ℕ
  leak : ι → ℕ

namespace State

section Steps

variable [DecidableEq ι] (s : State ι)

def claim (i : ι) (n : ℕ) : State ι := { s with phase := Function.update s.phase i (.claim n) }

def move (N : ℕ) (i : ι) (n : ℕ) : State ι :=
  { s with
    index := Function.update s.index i ((s.index i + n) % N)
    phase := Function.update s.phase i (.moved n) }

def pass (i j : ι) (n : ℕ) : State ι :=
  { s with
    pos := Function.update s.pos i (s.pos i + n)
    credit := Function.update s.credit j (s.credit j + n)
    phase := Function.update s.phase i (.passed n) }

def release (i : ι) (n : ℕ) : State ι :=
  { s with
    credit := Function.update s.credit i (s.credit i - n)
    phase := Function.update s.phase i .idle }

def forget (i : ι) (n : ℕ) : State ι :=
  { s with
    credit := Function.update s.credit i 0
    leak := Function.update s.leak i (s.leak i + (s.credit i - n))
    phase := Function.update s.phase i .idle }

end Steps

/-- The invariant: `cap i` cells are in front of `i` before anything was passed on. -/
structure Ledger (prev : ι → ι) (cap : ι → ℕ) (N : ℕ) (s : State ι) : Prop where
  credit : ∀ i, s.credit i + s.pos i + s.leak i = s.pos (prev i) + cap i + (s.phase i).owed
  held : ∀ i, s.pos i + (s.phase i).held + s.leak i ≤ s.pos (prev i) + cap i
  index : ∀ i, s.index i = (s.pos i + (s.phase i).ahead) % N

namespace Ledger

variable {prev : ι → ι} {cap : ι → ℕ} {N : ℕ} {s : State ι}

section Steps

variable [DecidableEq ι]

omit [DecidableEq ι] in
/-- A step that changes the data of one stage only, and passes nothing on. -/
theorem of_stage (h : Ledger prev cap N s) {s' : State ι} (i : ι) (hpos : s'.pos = s.pos)
    (hother : ∀ k, k ≠ i → s'.credit k = s.credit k ∧ s'.leak k = s.leak k ∧
      s'.phase k = s.phase k ∧ s'.index k = s.index k)
    (hcredit : s'.credit i + s.pos i + s'.leak i = s.pos (prev i) + cap i + (s'.phase i).owed)
    (hheld : s.pos i + (s'.phase i).held + s'.leak i ≤ s.pos (prev i) + cap i)
    (hindex : s'.index i = (s.pos i + (s'.phase i).ahead) % N) : Ledger prev cap N s' := by
  refine ⟨?_, ?_, ?_⟩ <;> intro k <;> rw [hpos]
  · rcases eq_or_ne k i with rfl | hk
    · exact hcredit
    · obtain ⟨ec, el, ep, -⟩ := hother k hk
      rw [ec, el, ep]
      exact h.credit k
  · rcases eq_or_ne k i with rfl | hk
    · exact hheld
    · obtain ⟨-, el, ep, -⟩ := hother k hk
      rw [el, ep]
      exact h.held k
  · rcases eq_or_ne k i with rfl | hk
    · exact hindex
    · obtain ⟨-, -, ep, ex⟩ := hother k hk
      rw [ex, ep]
      exact h.index k

theorem claim (h : Ledger prev cap N s) {i : ι} {n : ℕ} (hi : s.phase i = .idle)
    (hn : n ≤ s.credit i) : Ledger prev cap N (s.claim i n) := by
  have hc := h.credit i
  have hx := h.index i
  rw [hi] at hc hx
  simp only [Phase.owed_idle] at hc
  refine h.of_stage i rfl ?_ ?_ ?_ ?_
  · intro k hk
    simp [State.claim, hk]
  · simpa [State.claim] using hc
  · simp only [State.claim, Function.update_self, Phase.held_claim]
    omega
  · simpa [State.claim] using hx

theorem move (h : Ledger prev cap N s) {i : ι} {n : ℕ} (hi : s.phase i = .claim n) :
    Ledger prev cap N (s.move N i n) := by
  have hc := h.credit i
  have hh := h.held i
  have hx := h.index i
  rw [hi] at hc hh hx
  refine h.of_stage i rfl ?_ ?_ ?_ ?_
  · intro k hk
    simp [State.move, hk]
  · simpa [State.move] using hc
  · simpa [State.move] using hh
  · simp [State.move, hx]

theorem pass (h : Ledger prev cap N s) {i j : ι} {n : ℕ} (hi : s.phase i = .moved n)
    (hj : ∀ k, prev k = i ↔ k = j) (hij : j ≠ i) : Ledger prev cap N (s.pass i j n) := by
  have hpj : prev j = i := (hj j).mpr rfl
  have hpi : prev i ≠ i := fun hp => hij ((hj i).mp hp).symm
  have hh := h.held i
  rw [hi, Phase.held_moved] at hh
  refine ⟨?_, ?_, ?_⟩
  · intro k
    have hc := h.credit k
    by_cases hk : k = i
    · subst hk
      rw [hi] at hc
      simp [State.pass, hpi, hij.symm] at hc ⊢
      omega
    · by_cases hkj : k = j
      · subst hkj
        simp [State.pass, hk, hpj] at hc ⊢
        omega
      · have hpk : prev k ≠ i := fun hp => hkj ((hj k).mp hp)
        simpa [State.pass, hk, hkj, hpk] using hc
  · intro k
    have hc := h.held k
    by_cases hk : k = i
    · subst hk
      simp [State.pass, hpi]
      omega
    · by_cases hkj : k = j
      · subst hkj
        simp [State.pass, hk, hpj] at hc ⊢
        omega
      · have hpk : prev k ≠ i := fun hp => hkj ((hj k).mp hp)
        simpa [State.pass, hk, hpk] using hc
  · intro k
    have hx := h.index k
    by_cases hk : k = i
    · subst hk; simp [State.pass, hx, hi]
    · simpa [State.pass, hk] using hx

theorem release (h : Ledger prev cap N s) {i : ι} {n : ℕ} (hi : s.phase i = .passed n) :
    Ledger prev cap N (s.release i n) := by
  have hc := h.credit i
  have hh := h.held i
  have hx := h.index i
  rw [hi] at hc hh hx
  simp only [Phase.held_passed, Phase.owed_passed] at hh hc
  refine h.of_stage i rfl ?_ ?_ ?_ ?_
  · intro k hk
    simp [State.release, hk]
  · simp only [State.release, Function.update_self, Phase.owed_idle]
    omega
  · simpa [State.release] using hh
  · simpa [State.release] using hx

/-- Resetting the counter leaks whatever it held beyond the `n` cells passed on. -/
theorem forget (h : Ledger prev cap N s) {i : ι} {n : ℕ} (hi : s.phase i = .passed n) :
    Ledger prev cap N (s.forget i n) := by
  have hc := h.credit i
  have hh := h.held i
  have hx := h.index i
  rw [hi] at hc hh hx
  simp only [Phase.held_passed, Phase.owed_passed] at hh hc
  refine h.of_stage i rfl ?_ ?_ ?_ ?_
  · intro k hk
    simp [State.forget, hk]
  · simp only [State.forget, Function.update_self, Phase.owed_idle]
    omega
  · simp only [State.forget, Function.update_self, Phase.held_idle]
    omega
  · simpa [State.forget] using hx

end Steps

/-- A stage never subtracts more than its counter holds. -/
theorem owed_le (h : Ledger prev cap N s) (i : ι) : (s.phase i).owed ≤ s.credit i := by
  have := h.credit i
  have := h.held i
  omega

end Ledger

end State

end CreditRing
