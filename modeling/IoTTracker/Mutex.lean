import Mathlib.Logic.Function.Basic

/-!
# Who holds a mutex

A mutex remembers the thread that holds it. Each thread's program counter tells
whether it is inside its locked section. `Owns` says that the two agree, and from
it follows mutual exclusion. It is kept by a thread that takes the mutex when it
is free, by one that gives it back, and by every step that does neither.
-/

namespace Mutex

variable {θ : Type*}

/-- The threads inside their locked section are those that hold the mutex. -/
def Owns (inside : θ → Prop) (holder : Option θ) : Prop :=
  ∀ t, inside t ↔ holder = some t

variable {inside inside' : θ → Prop} {holder : Option θ} {t u : θ}

theorem Owns.exclusive (howns : Owns inside holder) (ht : inside t) (hu : inside u) : t = u :=
  Option.some.inj (((howns t).mp ht).symm.trans ((howns u).mp hu))

theorem owns_none_iff : Owns inside none ↔ ∀ t, ¬ inside t := by
  simp [Owns]

theorem Owns.eq_none (howns : Owns inside holder) (hoff : ∀ t, ¬ inside t) : holder = none := by
  rcases holder with _ | t
  · rfl
  · exact absurd ((howns t).mpr rfl) (hoff t)

theorem Owns.acquire (howns : Owns inside none) (ht : inside' t)
    (hothers : ∀ u, u ≠ t → (inside' u ↔ inside u)) : Owns inside' (some t) := by
  intro u
  by_cases hu : u = t
  · subst hu
    exact iff_of_true ht rfl
  · rw [hothers u hu, howns u]
    simp [Ne.symm hu]

theorem Owns.release (howns : Owns inside (some t)) (ht : ¬ inside' t)
    (hothers : ∀ u, u ≠ t → (inside' u ↔ inside u)) : Owns inside' none := by
  intro u
  by_cases hu : u = t
  · subst hu
    exact iff_of_false ht nofun
  · rw [hothers u hu, howns u]
    simp [Ne.symm hu]

theorem Owns.keep (howns : Owns inside holder) (ht : inside' t ↔ inside t)
    (hothers : ∀ u, u ≠ t → (inside' u ↔ inside u)) : Owns inside' holder := by
  intro u
  by_cases hu : u = t
  · subst hu
    exact ht.trans (howns u)
  · exact (hothers u hu).trans (howns u)

end Mutex
