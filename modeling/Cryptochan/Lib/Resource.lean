import Mathlib.Data.Finset.Basic

/-!
# Cryptochan.Lib.Resource — acquiring, using and releasing

A log of events over resources, replayed over the set of those that are held.  A replay gets stuck on
a resource that is acquired twice, or used or released while it is not held.
-/

namespace Cryptochan.Resource

variable {R : Type*}

inductive Event (R : Type*)
  | acquire (r : R)
  | use (r : R)
  | release (r : R)

variable [DecidableEq R]

def Event.apply (held : Finset R) : Event R → Option (Finset R)
  | .acquire r => if r ∈ held then none else some (insert r held)
  | .use r => if r ∈ held then some held else none
  | .release r => if r ∈ held then some (held.erase r) else none

/-- What is held after the events, `none` if one of them was not allowed. -/
def replay (held : Finset R) : List (Event R) → Option (Finset R)
  | [] => some held
  | e :: es => (e.apply held).bind fun held' => replay held' es

@[simp] theorem replay_nil (held : Finset R) : replay held [] = some held := rfl

theorem replay_append (held : Finset R) (es fs : List (Event R)) :
    replay held (es ++ fs) = (replay held es).bind fun held' => replay held' fs := by
  induction es generalizing held with
  | nil => rfl
  | cons e es ih =>
    rw [List.cons_append, replay, replay, Option.bind_assoc]
    exact congrArg _ (funext ih)

/-- What is acquired stays. -/
theorem replay_acquire {held : Finset R} {r : R} (hr : r ∉ held) (es : List (Event R)) :
    replay held (.acquire r :: es) = replay (insert r held) es := by
  rw [replay, Event.apply, if_neg hr, Option.bind_some]

theorem replay_uses {held : Finset R} {es : List (Event R)} (h : ∀ e ∈ es, ∃ r ∈ held, e = .use r) :
    replay held es = some held := by
  induction es with
  | nil => rfl
  | cons e es ih =>
    obtain ⟨r, hr, rfl⟩ := h e List.mem_cons_self
    rw [replay, Event.apply, if_pos hr, Option.bind_some]
    exact ih fun e he => h e (List.mem_cons_of_mem _ he)

theorem replay_release {held : Finset R} {r : R} (hr : r ∉ held) :
    replay (insert r held) [.release r] = some held := by
  rw [replay, Event.apply, if_pos (Finset.mem_insert_self r held), Finset.erase_insert hr]
  rfl

/-- A resource acquired first and released last. -/
theorem replay_bracket {held held' : Finset R} {r : R} (hr : r ∉ held) (hr' : r ∉ held')
    {es : List (Event R)} (h : replay (insert r held) es = some (insert r held')) :
    replay held (.acquire r :: (es ++ [.release r])) = some held' := by
  rw [replay_acquire hr, replay_append, h, Option.bind_some, replay_release hr']

end Cryptochan.Resource
