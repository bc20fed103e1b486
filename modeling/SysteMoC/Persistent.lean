import Mathlib.Data.List.Perm.Subperm

/-!
# Persistent systems

Steps with labels, a label naming at most one step of a state. Where two steps of a
state never get in each other's way, a run that comes to an end has all the steps of
every other run, whatever their order.
-/

namespace Persistent

section
variable {S L : Type}

def exec (step : S → L → Option S) (w : List L) (s : S) : Option S := w.foldlM step s

def Final (step : S → L → Option S) (s : S) : Prop := ∀ l, step s l = none

/-- Neither of two steps takes the other one away, and their order does not matter. -/
def Diamond (step : S → L → Option S) : Prop :=
  ∀ s l l' s₁ s₂, l ≠ l' → step s l = some s₁ → step s l' = some s₂ → ∃ s₃, step s₁ l' = some s₃ ∧ step s₂ l = some s₃

variable {step : S → L → Option S} {s s₁ s₂ : S} {l : L} {w w' : List L}

@[simp] theorem exec_nil : exec step [] s = some s := rfl

theorem exec_cons : exec step (l :: w) s = (step s l).bind (exec step w) := List.foldlM_cons

theorem exec_append : exec step (w ++ w') s = (exec step w s).bind (exec step w') := List.foldlM_append

theorem exec_cons_of (h : step s l = some s₁) : exec step (l :: w) s = exec step w s₁ := by
  rw [exec_cons, h, Option.bind_some]

/-- Steps that commute can be taken in any order. -/
theorem exec_perm (hperm : w.Perm w') (hcomm : ∀ l ∈ w, ∀ l' ∈ w, ∀ s, (step s l).bind (step · l') = (step s l').bind (step · l))
    (s : S) : exec step w s = exec step w' s := by
  induction hperm generalizing s with
  | nil => rfl
  | cons l _ ih =>
    rw [exec_cons, exec_cons]
    congr 1
    funext s'
    exact ih (fun l₁ h₁ l₂ h₂ => hcomm l₁ (List.mem_cons_of_mem _ h₁) l₂ (List.mem_cons_of_mem _ h₂)) s'
  | swap l l' w =>
    have h := hcomm l' List.mem_cons_self l (List.mem_cons_of_mem _ List.mem_cons_self) s
    have htwo : ∀ l l', exec step (l :: l' :: w) s = ((step s l).bind (step · l')).bind (exec step w) := by
      intro l l'
      rw [exec_cons, Option.bind_assoc]
      rfl
    rw [htwo, htwo, h]
  | trans h₁ _ ih₁ ih₂ =>
    rw [ih₁ hcomm s]
    exact ih₂ (fun l h l' h' => hcomm l (h₁.mem_iff.mpr h) l' (h₁.mem_iff.mpr h')) s

/-- A step that a run does not take can be taken before it or after it. -/
theorem Diamond.skip (hd : Diamond step) (hl : step s l = some s₁) (hw : exec step w s = some s₂) (hnot : l ∉ w) :
    ∃ s₃, exec step w s₁ = some s₃ ∧ step s₂ l = some s₃ := by
  induction w generalizing s s₁ with
  | nil =>
    cases hw
    exact ⟨s₁, rfl, hl⟩
  | cons l' w ih =>
    rw [List.mem_cons, not_or] at hnot
    rw [exec_cons] at hw
    obtain ⟨s', hs', hw⟩ := Option.bind_eq_some_iff.mp hw
    obtain ⟨s₃, h₁, h'⟩ := hd s l l' s₁ s' hnot.1 hl hs'
    obtain ⟨s₄, hrun, hlast⟩ := ih h' hw hnot.2
    exact ⟨s₄, (exec_cons_of h₁).trans hrun, hlast⟩

variable [DecidableEq L]

/-- A step that a run takes can be taken first. -/
theorem Diamond.front (hd : Diamond step) (hl : step s l = some s₁) (hw : exec step w s = some s₂) (hmem : l ∈ w) :
    exec step (w.erase l) s₁ = some s₂ := by
  induction w generalizing s s₁ with
  | nil => cases hmem
  | cons l' w ih =>
    rw [exec_cons] at hw
    obtain ⟨s', hs', hw⟩ := Option.bind_eq_some_iff.mp hw
    by_cases heq : l' = l
    · subst heq
      rw [hl, Option.some.injEq] at hs'
      rw [List.erase_cons_head, hs']
      exact hw
    · obtain ⟨s₃, h₁, h'⟩ := hd s l l' s₁ s' (Ne.symm heq) hl hs'
      rw [List.erase_cons_tail (by simpa using heq), exec_cons_of h₁]
      exact ih h' hw ((List.mem_cons.mp hmem).resolve_left (Ne.symm heq))

/-- A run that comes to an end has the steps of any other one, and goes on from there. -/
theorem Diamond.rest (hd : Diamond step) (hw : exec step w s = some s₁) (hf : Final step s₁)
    (hw' : exec step w' s = some s₂) : w'.Subperm w ∧ exec step (w.diff w') s₂ = some s₁ := by
  induction w' generalizing w s with
  | nil =>
    cases hw'
    exact ⟨List.nil_subperm, hw⟩
  | cons l w' ih =>
    rw [exec_cons] at hw'
    obtain ⟨s', hl, hw'⟩ := Option.bind_eq_some_iff.mp hw'
    have hmem : l ∈ w := by
      by_contra hnot
      obtain ⟨s₃, _, hlast⟩ := hd.skip hl hw hnot
      rw [hf l] at hlast
      cases hlast
    obtain ⟨hsub, hrest⟩ := ih (hd.front hl hw hmem) hw'
    rw [List.diff_cons]
    refine ⟨?_, hrest⟩
    exact (List.subperm_cons l).mpr hsub |>.trans (List.perm_cons_erase hmem).symm.subperm

omit [DecidableEq L] in
theorem Final.exec_eq (hf : Final step s) (hw : exec step w s = some s₁) : s₁ = s := by
  cases w with
  | nil =>
    cases hw
    rfl
  | cons l w =>
    rw [exec_cons, hf l] at hw
    cases hw

/-- Runs that come to an end take the same steps and end alike. -/
theorem Diamond.final_unique (hd : Diamond step) (hw : exec step w s = some s₁) (hf : Final step s₁)
    (hw' : exec step w' s = some s₂) (hf' : Final step s₂) : w'.Perm w ∧ s₂ = s₁ := by
  obtain ⟨hsub, hrest⟩ := hd.rest hw hf hw'
  obtain ⟨hsub', _⟩ := hd.rest hw' hf' hw
  exact ⟨hsub.antisymm hsub', (hf'.exec_eq hrest).symm⟩

end

end Persistent
