import Mathlib.Data.List.Basic

/-!
# Walks that stop early

A walk changes list elements one by one and stops at the first that meets a
condition. Where the elements that meet it form a final part of the list, the
walk has changed all elements that did not.
-/

namespace Walk

variable {α β : Type} {stop : α → Bool} {f : α → α} {l : List α}

/-- Applies `f` to the elements before the first that meets `stop`. -/
def mapUntil (stop : α → Bool) (f : α → α) : List α → List α
  | [] => []
  | a :: l => if stop a then a :: l else f a :: mapUntil stop f l

def visited (stop : α → Bool) : List α → List α
  | [] => []
  | a :: l => if stop a then [] else a :: visited stop l

theorem mapUntil_eq (h : l.Pairwise fun a b => stop a = true → stop b = true) :
    mapUntil stop f l = l.map fun a => if stop a then a else f a := by
  induction l with
  | nil => rfl
  | cons a l ih =>
    obtain ⟨ha, hl⟩ := List.pairwise_cons.mp h
    rw [mapUntil, List.map_cons]
    by_cases hs : stop a = true
    · rw [if_pos hs, if_pos hs]
      congr 1
      conv_lhs => rw [← List.map_id l]
      apply List.map_congr_left
      intro b hb
      rw [if_pos (ha b hb hs)]
      rfl
    · rw [if_neg hs, if_neg hs, ih hl]

theorem map_mapUntil (f : α → α) (g : α → β) (hf : ∀ a, g (f a) = g a) : (mapUntil stop f l).map g = l.map g := by
  induction l with
  | nil => rfl
  | cons a l ih =>
    rw [mapUntil]
    by_cases hs : stop a = true
    · rw [if_pos hs]
    · rw [if_neg hs, List.map_cons, List.map_cons, hf, ih]

end Walk
