import Mathlib.Data.List.Induction

/-!
# Cryptochan.Lib.Run — runs of a partial transition function

A system is a function `step : σ → ε → Option σ`: `step s e = none` when the event `e` is not
enabled in `s`.  `run step s es` performs the events of `es` in order.  Rules: runs compose over
`++`, an inductive predicate of the events and the state holds after every run, a measure that can
always be lowered against an opponent leads to the goal (`Forces`), also round by round, and two
machines in step with each other give the same answers.  `outputs` collects what the steps put out.
-/

namespace Run

variable {σ ε : Type*} {step : σ → ε → Option σ}

/-- The state after the events `es`, if each of them is enabled when its turn comes. -/
def run (step : σ → ε → Option σ) : σ → List ε → Option σ
  | s, [] => some s
  | s, e :: es => (step s e).bind fun s' => run step s' es

@[simp] theorem run_nil (s : σ) : run step s [] = some s := rfl

theorem run_cons (s : σ) (e : ε) (es : List ε) :
    run step s (e :: es) = (step s e).bind fun s' => run step s' es := rfl

theorem run_append (s : σ) (es es' : List ε) :
    run step s (es ++ es') = (run step s es).bind fun s' => run step s' es' := by
  induction es generalizing s with
  | nil => rfl
  | cons e es ih =>
    rw [List.cons_append, run_cons, run_cons, Option.bind_assoc]
    exact congrArg _ (funext fun s' => ih s')

theorem run_snoc_iff {s s'' : σ} {es : List ε} {e : ε} :
    run step s (es ++ [e]) = some s'' ↔ ∃ s', run step s es = some s' ∧ step s' e = some s'' := by
  rw [run_append, Option.bind_eq_some_iff]
  simp [run_cons]

/-- **Run rule**: a predicate of the events so far and the state reached, true at the start and
kept by every enabled step, is true after every run. -/
theorem run_induction {s0 : σ} (P : List ε → σ → Prop) (h0 : P [] s0)
    (hstep : ∀ es s e s', run step s0 es = some s → P es s → step s e = some s' → P (es ++ [e]) s') :
    ∀ es s, run step s0 es = some s → P es s := by
  intro es
  induction es using List.reverseRecOn with
  | nil =>
    intro s h
    obtain rfl : s0 = s := by simpa using h
    exact h0
  | append_singleton es e ih =>
    intro s h
    obtain ⟨s', h1, h2⟩ := run_snoc_iff.mp h
    exact hstep es s' e s h1 (ih s' h1) h2

/-- **Invariant rule**, for the runs whose events satisfy `A`. -/
theorem run_invariant {s0 : σ} (A : ε → Prop) (I : σ → Prop) (h0 : I s0)
    (hstep : ∀ s e s', A e → I s → step s e = some s' → I s') {es : List ε} {s : σ}
    (hA : ∀ e ∈ es, A e) (h : run step s0 es = some s) : I s := by
  revert hA
  refine run_induction (fun es s => (∀ e ∈ es, A e) → I s) (fun _ => h0) ?_ es s h
  intro es s e s' _ ih hs hA
  exact hstep s e s' (hA e (by simp)) (ih fun e' he' => hA e' (by simp [he'])) hs

/-! ### What a run puts out -/

section Outputs

variable {α : Type*} {out : σ → ε → σ → List α}

/-- What the steps of a run put out, one behind the other. -/
def outputs (step : σ → ε → Option σ) (out : σ → ε → σ → List α) : σ → List ε → List α
  | _, [] => []
  | s, e :: es => (step s e).elim [] fun s' => out s e s' ++ outputs step out s' es

theorem outputs_singleton {s s' : σ} {e : ε} (hs : step s e = some s') :
    outputs step out s [e] = out s e s' := by
  rw [outputs, hs]
  exact List.append_nil _

/-- The last step puts its part behind the others. -/
theorem outputs_snoc {s s' s'' : σ} {es : List ε} {e : ε} (hrun : run step s es = some s')
    (hs : step s' e = some s'') :
    outputs step out s (es ++ [e]) = outputs step out s es ++ out s' e s'' := by
  induction es generalizing s with
  | nil =>
    obtain rfl : s = s' := Option.some.inj hrun
    exact outputs_singleton hs
  | cons e' es ih =>
    obtain ⟨s1, h1, h2⟩ := Option.bind_eq_some_iff.mp hrun
    rw [List.cons_append, outputs, outputs, h1]
    dsimp only [Option.elim_some]
    rw [ih h2, List.append_assoc]

end Outputs

/-! ### Against an opponent -/

section Forces

variable {δ : Type*} {step : σ → ε → δ → Option σ} {P : σ → Prop}

/-- Some choice of the events leads to `P` whatever `d` the opponent adds to each of them. -/
inductive Forces (step : σ → ε → δ → Option σ) (P : σ → Prop) : σ → Prop
  | now {s : σ} (h : P s) : Forces step P s
  | later {s : σ} (e : ε) (next : δ → σ) (hs : ∀ d, step s e d = some (next d))
      (h : ∀ d, Forces step P (next d)) : Forces step P s

/-- **Progress rule** for a well-founded measure, against an opponent. -/
theorem forces_of_descent {α : Type*} {r : α → α → Prop} (hr : WellFounded r) (I P : σ → Prop)
    (μ : σ → α) (hstep : ∀ s, I s → ¬ P s → ∃ e, ∀ d, ∃ s', step s e d = some s' ∧ I s' ∧
      r (μ s') (μ s)) {s : σ} (hs : I s) : Forces step P s := by
  induction hμ : μ s using hr.induction generalizing s with
  | _ m ih =>
    by_cases hP : P s
    · exact .now hP
    · obtain ⟨e, he⟩ := hstep s hs hP
      choose next hnext hI hlt using he
      exact .later e next hnext fun d => ih _ (hμ ▸ hlt d) (hI d) rfl

/-- First to `Q`, then on to `P`. -/
theorem Forces.trans {Q : σ → Prop} {s : σ} (h : Forces step Q s)
    (hQ : ∀ s', Q s' → Forces step P s') : Forces step P s := by
  induction h with
  | now h => exact hQ _ h
  | later e next hs _ ih => exact .later e next hs ih

/-- **Progress rule**, round by round: each round may take many events and lowers the measure, or
ends in `P`. -/
theorem forces_of_rounds (I P : σ → Prop) (μ : σ → ℕ)
    (hround : ∀ s, I s → ¬ P s → Forces step (fun s' => I s' ∧ (P s' ∨ μ s' < μ s)) s) {s : σ}
    (hs : I s) : Forces step P s := by
  induction hμ : μ s using Nat.strongRecOn generalizing s with
  | ind m ih =>
    by_cases hP : P s
    · exact .now hP
    · refine (hround s hs hP).trans fun s' h' => ?_
      rcases h'.2 with hP' | hlt
      · exact .now hP'
      · exact ih _ (hμ ▸ hlt) h'.1 rfl

end Forces

/-! ### Machines with answers -/

section Answers

variable {τ ο : Type*}

/-- The last state and the answers of a machine that answers every command. -/
def answers (f : σ → ε → σ × ο) : σ → List ε → σ × List ο
  | s, [] => (s, [])
  | s, c :: cs => ((answers f (f s c).1 cs).1, (f s c).2 :: (answers f (f s c).1 cs).2)

/-- **Refinement rule**: two machines whose related states answer every command alike, and stay
related, answer every sequence of commands alike. -/
theorem answers_eq_of_rel {f : σ → ε → σ × ο} {g : τ → ε → τ × ο} (R : σ → τ → Prop)
    (hstep : ∀ s t c, R s t → (f s c).2 = (g t c).2 ∧ R (f s c).1 (g t c).1) :
    ∀ (cs : List ε) (s : σ) (t : τ), R s t →
      (answers f s cs).2 = (answers g t cs).2 ∧ R (answers f s cs).1 (answers g t cs).1
  | [], _, _, h => ⟨rfl, h⟩
  | c :: cs, s, t, h => by
    obtain ⟨hc, hR⟩ := hstep s t c h
    obtain ⟨h1, h2⟩ := answers_eq_of_rel R hstep cs _ _ hR
    exact ⟨by simp only [answers, hc, h1], h2⟩

end Answers

/-! ### Machines that may get stuck -/

section Replies

variable {τ ο : Type*} {f : σ → ε → Option (σ × ο)}

/-- The last state and the answers, if every command is answered. -/
def replies (f : σ → ε → Option (σ × ο)) : σ → List ε → Option (σ × List ο)
  | s, [] => some (s, [])
  | s, c :: cs => (f s c).bind fun r => (replies f r.1 cs).map fun r' => (r'.1, r.2 :: r'.2)

@[simp] theorem replies_nil (s : σ) : replies f s [] = some (s, []) := rfl

theorem replies_cons_iff {s s'' : σ} {c : ε} {cs : List ε} {as : List ο} :
    replies f s (c :: cs) = some (s'', as) ↔
      ∃ s' a as', f s c = some (s', a) ∧ replies f s' cs = some (s'', as') ∧ as = a :: as' := by
  constructor
  · intro h
    obtain ⟨⟨s', a⟩, h1, h2⟩ := Option.bind_eq_some_iff.mp h
    obtain ⟨⟨s2, as'⟩, h3, he⟩ := Option.map_eq_some_iff.mp h2
    obtain ⟨rfl, rfl⟩ := Prod.mk.inj he
    exact ⟨s', a, as', h1, h3, rfl⟩
  · rintro ⟨s', a, as', h1, h2, rfl⟩
    refine Option.bind_eq_some_iff.mpr ⟨(s', a), h1, ?_⟩
    dsimp only
    rw [h2]
    rfl

/-- **Invariant rule** for answered commands. -/
theorem replies_invariant (I : σ → Prop)
    (hstep : ∀ s c s' a, I s → f s c = some (s', a) → I s') :
    ∀ (cs : List ε) (s s' : σ) (as : List ο), I s → replies f s cs = some (s', as) → I s' := by
  intro cs
  induction cs with
  | nil =>
    intro s s' as hs h
    obtain ⟨rfl, -⟩ := Prod.mk.inj (Option.some.inj h)
    exact hs
  | cons c cs ih =>
    intro s s' as hs h
    obtain ⟨s1, a, as', h1, h2, -⟩ := replies_cons_iff.mp h
    exact ih s1 s' as' (hstep s c s1 a hs h1) h2

/-- **Refinement rule**: a machine whose states are related to those of a machine that never gets
stuck, and that answers every command alike, never gets stuck either. -/
theorem replies_of_rel {g : τ → ε → τ × ο} (R : σ → τ → Prop)
    (hstep : ∀ s t c, R s t → ∃ s', f s c = some (s', (g t c).2) ∧ R s' (g t c).1) :
    ∀ (cs : List ε) (s : σ) (t : τ), R s t →
      ∃ s', replies f s cs = some (s', (answers g t cs).2) ∧ R s' (answers g t cs).1 := by
  intro cs
  induction cs with
  | nil => exact fun s t h => ⟨s, rfl, h⟩
  | cons c cs ih =>
    intro s t h
    obtain ⟨s1, h1, hR1⟩ := hstep s t c h
    obtain ⟨s', h2, hR'⟩ := ih s1 _ hR1
    exact ⟨s', replies_cons_iff.mpr ⟨s1, _, _, h1, h2, rfl⟩, hR'⟩

end Replies

end Run
