import Mathlib.Data.List.Induction

/-!
# Folding a list group by group

The elements with one key are folded on their own, in the order in which they stand.
-/

namespace Grouping

variable {A B K : Type}

/-- The first element starts the fold. -/
def fold (first : A → B) (next : B → A → Option B) : List A → Option B
  | [] => none
  | a :: l => l.foldlM next (first a)

variable {first : A → B} {next : B → A → Option B} {l : List A} {a : A} {b : B}

@[simp] theorem fold_nil : fold first next [] = none := rfl

@[simp] theorem fold_singleton : fold first next [a] = some (first a) := rfl

theorem fold_concat (hl : l ≠ []) : fold first next (l ++ [a]) = (fold first next l).bind fun b => next b a := by
  cases l with
  | nil => exact absurd rfl hl
  | cons c l => simp [fold]

theorem fold_concat_of (h : fold first next l = some b) : fold first next (l ++ [a]) = next b a := by
  rw [fold_concat, h, Option.bind_some]
  intro hl
  rw [hl, fold_nil] at h
  cases h

theorem fold_ne_nil (h : fold first next l = some b) : l ≠ [] := by
  intro hl
  rw [hl, fold_nil] at h
  cases h

theorem fold_prefix {l' : List A} (hl : l ≠ []) (h : (fold first next (l ++ l')).isSome) :
    (fold first next l).isSome := by
  induction l' generalizing l with
  | nil => rwa [List.append_nil] at h
  | cons a l' ih =>
    rw [← List.singleton_append, ← List.append_assoc] at h
    have hone := ih (by simp) h
    rw [fold_concat hl] at hone
    cases hfold : fold first next l with
    | none =>
      rw [hfold] at hone
      cases hone
    | some b => rfl

theorem fold_induction {P : List A → B → Prop} (hfirst : ∀ a, P [a] (first a))
    (hnext : ∀ l a b b', fold first next l = some b → P l b → next b a = some b' → P (l ++ [a]) b')
    (h : fold first next l = some b) : P l b := by
  induction l using List.reverseRecOn generalizing b with
  | nil => cases h
  | append_singleton l a ih =>
    by_cases hl : l = []
    · subst hl
      simp only [List.nil_append, fold_singleton, Option.some.injEq] at h
      subst h
      exact hfirst a
    · rw [fold_concat hl] at h
      obtain ⟨b', hb', hnext'⟩ := Option.bind_eq_some_iff.mp h
      exact hnext l a b' b hb' (ih hb') hnext'

variable [DecidableEq K]

def group (f : A → K) (l : List A) (k : K) : List A := l.filter (f · = k)

variable {f : A → K} {k : K}

@[simp] theorem group_nil : group f [] k = [] := rfl

theorem mem_group : a ∈ group f l k ↔ a ∈ l ∧ f a = k := by
  simp [group]

theorem group_append (l' : List A) : group f (l ++ l') k = group f l k ++ group f l' k := List.filter_append ..

theorem group_concat_self : group f (l ++ [a]) (f a) = group f l (f a) ++ [a] := by
  simp [group]

theorem group_concat_of_ne (h : k ≠ f a) : group f (l ++ [a]) k = group f l k := by
  simp [group, Ne.symm h]

theorem group_eq_nil : group f l k = [] ↔ ∀ a ∈ l, f a ≠ k := by
  simp [group, List.filter_eq_nil_iff]

theorem group_ne_nil (h : a ∈ l) : group f l (f a) ≠ [] := by
  intro hnil
  exact group_eq_nil.mp hnil a h rfl

end Grouping
