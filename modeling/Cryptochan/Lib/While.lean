import Mathlib.Tactic.Common

/-!
# Cryptochan.Lib.While — a loop whose body can fail

`whileSome P body fuel` repeats `body` while `P` holds; it gives `none` if the body does, or if the
fuel is used up.  The rule `whileSome_eq` compares it with a loop that cannot fail: under an
invariant that makes the body succeed, and a measure that the body decreases, both do the same.
-/

namespace While

variable {σ : Type*} (P : σ → Prop) [DecidablePred P] (body : σ → Option σ)

def whileSome : ℕ → σ → Option σ
  | 0, s => if P s then none else some s
  | fuel + 1, s => if P s then (body s).bind (whileSome fuel) else some s

variable {P body}

/-- **Loop rule.** -/
theorem whileSome_eq {loop : σ → σ} (step : σ → σ) (I : σ → Prop) (μ : σ → ℕ)
    (hloop : ∀ s, loop s = if P s then loop (step s) else s)
    (hbody : ∀ s, I s → P s → body s = some (step s) ∧ I (step s) ∧ μ (step s) < μ s) :
    ∀ fuel s, I s → μ s ≤ fuel → whileSome P body fuel s = some (loop s) ∧ I (loop s) := by
  intro fuel
  induction fuel with
  | zero =>
    intro s hI hμ
    by_cases hP : P s
    · have := (hbody s hI hP).2.2
      omega
    · rw [hloop s, if_neg hP, whileSome, if_neg hP]
      exact ⟨rfl, hI⟩
  | succ fuel ih =>
    intro s hI hμ
    by_cases hP : P s
    · obtain ⟨hb, hI', hlt⟩ := hbody s hI hP
      rw [hloop s, if_pos hP, whileSome, if_pos hP, hb]
      exact ih (step s) hI' (by omega)
    · rw [hloop s, if_neg hP, whileSome, if_neg hP]
      exact ⟨rfl, hI⟩

end While
