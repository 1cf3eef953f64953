import Mathlib.Algebra.BigOperators.Group.Finset.Basic
import Mathlib.Data.Fintype.Basic

/-!
# Cryptochan.Lib.Tally — what threads hold together

Threads `τ` have local states `σ`, and a thread in the state `c` holds `f c` of something that can be
added up.  `total f st` is what they hold together.  A step of one thread changes the total by what
that thread gains or loses; so goods that are only handed on are neither lost nor doubled.  `left done
st` is the number of threads that are not done.
-/

namespace Tally

variable {τ σ M : Type*} [Fintype τ] [AddCommMonoid M] {f : σ → M} {st st' : τ → σ} {t : τ}

def total (f : σ → M) (st : τ → σ) : M := ∑ t, f (st t)

/-- Only the thread `t` made a step. -/
def StepOf (t : τ) (st st' : τ → σ) : Prop := ∀ u, u ≠ t → st' u = st u

omit [Fintype τ] in
theorem StepOf.symm (h : StepOf t st st') : StepOf t st' st := fun u hu => (h u hu).symm

/-- Nobody gained or lost anything. -/
theorem total_congr (h : ∀ u, f (st' u) = f (st u)) : total f st' = total f st :=
  Finset.sum_congr rfl fun u _ => h u

theorem total_same (h : StepOf t st st') (hf : f (st' t) = f (st t)) : total f st' = total f st := by
  refine total_congr fun u => ?_
  rcases eq_or_ne u t with rfl | hne
  · exact hf
  · rw [h u hne]

/-- The thread gained `x`; read backwards, it lost `x`. -/
theorem total_gain (h : StepOf t st st') {x : M} (hf : f (st' t) = f (st t) + x) :
    total f st' = total f st + x := by
  classical
  have hrest : ∑ u ∈ Finset.univ.erase t, f (st' u) = ∑ u ∈ Finset.univ.erase t, f (st u) :=
    Finset.sum_congr rfl fun u hu => by rw [h u (Finset.ne_of_mem_erase hu)]
  unfold total
  rw [← Finset.add_sum_erase _ _ (Finset.mem_univ t), hf, hrest,
    ← Finset.add_sum_erase (a := t) _ (fun u => f (st u)) (Finset.mem_univ t)]
  exact add_right_comm _ _ _

theorem total_zero (h : ∀ u, f (st u) = 0) : total f st = 0 := Finset.sum_eq_zero fun u _ => h u

theorem total_add {g : σ → M} : total (fun c => f c + g c) st = total f st + total g st :=
  Finset.sum_add_distrib

/-- What is added up after a map of the goods is the map of what is held. -/
theorem total_map {N : Type*} [AddCommMonoid N] (g : M →+ N) :
    total (fun c => g (f c)) st = g (total f st) := (map_sum g _ _).symm

/-! ### Threads that are not done -/

section Left

variable (done : σ → Prop) [DecidablePred done]

def left (st : τ → σ) : ℕ :=
  (Finset.univ.filter fun t => ¬ done (st t)).card

theorem left_le (h : ∀ u, done (st u) → done (st' u)) : left done st' ≤ left done st :=
  Finset.card_le_card fun u hu => by
    simp only [Finset.mem_filter, Finset.mem_univ, true_and] at hu ⊢
    exact mt (h u) hu

theorem left_lt (h : ∀ u, done (st u) → done (st' u)) (ht : ¬ done (st t)) (ht' : done (st' t)) :
    left done st' < left done st := by
  refine Finset.card_lt_card (Finset.ssubset_iff_of_subset ?_ |>.mpr ⟨t, ?_, ?_⟩)
  · intro u hu
    simp only [Finset.mem_filter, Finset.mem_univ, true_and] at hu ⊢
    exact mt (h u) hu
  · simpa using ht
  · simpa using ht'

end Left

end Tally
