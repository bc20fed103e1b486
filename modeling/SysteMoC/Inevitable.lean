import Mathlib.Order.WellFounded

/-!
# What happens whatever is chosen

A system whose steps others choose, and states that it gets to in any case.
-/

namespace Liveness

/-- However the steps are chosen, there is a next one until a state with the property is reached,
which takes finitely many of them. -/
inductive Inevitable {S : Type} (step : S → S → Prop) (P : S → Prop) : S → Prop where
  | now {s} (h : P s) : Inevitable step P s
  | later {s} (hnext : ∃ s', step s s') (h : ∀ s', step s s' → Inevitable step P s') : Inevitable step P s

variable {S R : Type} {step : S → S → Prop} {P : S → Prop}

namespace Inevitable

/-- It is enough that there is a step and that each one makes the rank smaller. A state has the rank
of a description of it. -/
theorem of_rank {lt : R → R → Prop} (hwf : WellFounded lt) (ranked : R → S → Prop)
    (hstep : ∀ r s, ranked r s → ¬ P s → (∃ s', step s s') ∧ ∀ s', step s s' → ∃ r', lt r' r ∧ ranked r' s') {r : R} :
    ∀ {s}, ranked r s → Inevitable step P s := by
  induction r using hwf.induction with
  | h r ih =>
    intro s hr
    by_cases h : P s
    · exact .now h
    · obtain ⟨hnext, hall⟩ := hstep r s hr h
      refine .later hnext fun s' hs' => ?_
      obtain ⟨r', hlt, hr'⟩ := hall s' hs'
      exact ih r' hlt hr'

end Inevitable

end Liveness
