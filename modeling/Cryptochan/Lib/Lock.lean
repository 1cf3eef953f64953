import Mathlib.Logic.Function.Basic
import Mathlib.Tactic.Common

/-!
# Cryptochan.Lib.Lock — a lock and the threads that may own it

Threads `τ` have local states `σ`; `own c` says that a thread with the local state `c` owns the lock.
`Exclusive own locked st`: the lock is taken exactly when some thread owns it, and no two threads
do.  A step of one thread changes its local state only (`Function.update`); it keeps, takes or gives
back the lock.
-/

namespace Lock

variable {τ σ : Type*} {own : σ → Prop} {locked locked' : Prop} {st : τ → σ} {t u : τ} {c : σ}

/-- The lock is taken exactly when it is owned, by one thread. -/
structure Exclusive (own : σ → Prop) (locked : Prop) (st : τ → σ) : Prop where
  locked_iff : locked ↔ ∃ t, own (st t)
  unique : ∀ t u, own (st t) → own (st u) → t = u

namespace Exclusive

theorem locked_of_own (h : Exclusive own locked st) (ht : own (st t)) : locked :=
  h.locked_iff.mpr ⟨t, ht⟩

theorem not_own (h : Exclusive own locked st) (hfree : ¬ locked) (t : τ) : ¬ own (st t) :=
  fun ht => hfree (h.locked_of_own ht)

/-- Who owns the lock excludes the others. -/
theorem not_own_of_ne (h : Exclusive own locked st) (ht : own (st t)) (hne : u ≠ t) : ¬ own (st u) :=
  fun hu => hne (h.unique u t hu ht)

theorem locked_iff_existsUnique (h : Exclusive own locked st) : locked ↔ ∃! t, own (st t) := by
  constructor
  · intro hl
    obtain ⟨t, ht⟩ := h.locked_iff.mp hl
    exact ⟨t, ht, fun u hu => h.unique u t hu ht⟩
  · rintro ⟨t, ht, -⟩
    exact h.locked_of_own ht

/-- The lock is free when its owner no longer owns it and nothing else changed. -/
theorem free_of_release {st' : τ → σ} (h : Exclusive own locked st) (h' : Exclusive own locked' st')
    (ht : own (st t)) (hothers : ∀ u, u ≠ t → st' u = st u) (hfree : ¬ own (st' t)) : ¬ locked' := by
  intro hl
  obtain ⟨u, hu⟩ := h'.locked_iff.mp hl
  rcases eq_or_ne u t with rfl | hne
  · exact hfree hu
  · rw [hothers u hne] at hu
    exact hne (h.unique u t hu ht)

/-! ### Steps of one thread -/

variable [DecidableEq τ]

/-- A step that keeps what the thread owns. -/
theorem same (h : Exclusive own locked st) (hc : own c ↔ own (st t)) (hl : locked' ↔ locked) :
    Exclusive own locked' (Function.update st t c) := by
  have hiff : ∀ u, own (Function.update st t c u) ↔ own (st u) := by
    intro u
    rcases eq_or_ne u t with rfl | hne
    · rw [Function.update_self, hc]
    · rw [Function.update_of_ne hne]
  refine ⟨?_, fun u v hu hv => h.unique u v ((hiff u).mp hu) ((hiff v).mp hv)⟩
  rw [hl, h.locked_iff]
  exact exists_congr fun u => (hiff u).symm

/-- A step that takes the free lock. -/
theorem acquire (h : Exclusive own locked st) (hfree : ¬ locked) (hc : own c) (hl : locked') :
    Exclusive own locked' (Function.update st t c) := by
  have hown : ∀ u, own (Function.update st t c u) → u = t := by
    intro u hu
    by_contra hne
    rw [Function.update_of_ne hne] at hu
    exact h.not_own hfree u hu
  exact ⟨iff_of_true hl ⟨t, by rwa [Function.update_self]⟩,
    fun u v hu hv => (hown u hu).trans (hown v hv).symm⟩

/-- A step that gives the lock back. -/
theorem release (h : Exclusive own locked st) (ht : own (st t)) (hc : ¬ own c) (hl : ¬ locked') :
    Exclusive own locked' (Function.update st t c) := by
  have hnone : ∀ u, ¬ own (Function.update st t c u) := by
    intro u hu
    rcases eq_or_ne u t with rfl | hne
    · rw [Function.update_self] at hu
      exact hc hu
    · rw [Function.update_of_ne hne] at hu
      exact h.not_own_of_ne ht hne hu
  exact ⟨iff_of_false hl fun ⟨u, hu⟩ => hnone u hu, fun u v hu => absurd hu (hnone u)⟩

end Exclusive

end Lock
