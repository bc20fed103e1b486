import Mathlib.Logic.Relation
import Mathlib.Tactic.Common

/-!
# Directed graphs that grow

A relation whose edges go up in rank has no cycles. What remains true when a fresh
vertex is put between two others, before one or behind one.
-/

namespace Digraph

open Relation

variable {V : Type} {E E' : V → V → Prop} {u v c x y : V}

def Ranked (E : V → V → Prop) : Prop := ∃ r : V → Nat, ∀ x y, E x y → r x < r y

theorem Ranked.acyclic (h : Ranked E) (x : V) : ¬ TransGen E x x := by
  obtain ⟨r, hr⟩ := h
  have hup : ∀ y, TransGen E x y → r x < r y := by
    intro y hy
    induction hy with
    | single h => exact hr _ _ h
    | tail _ h ih => exact Nat.lt_trans ih (hr _ _ h)
  exact fun h => Nat.lt_irrefl _ (hup x h)

/-- Connected when directions are ignored. -/
def Weak (E : V → V → Prop) : V → V → Prop := ReflTransGen fun x y => E x y ∨ E y x

theorem Weak.symm (h : Weak E x y) : Weak E y x := by
  induction h with
  | refl => exact .refl
  | tail _ h ih => exact .head h.symm ih

theorem Weak.mono (h : Weak E x y) (hE : ∀ x y, E x y → E' x y) : Weak E' x y := by
  induction h with
  | refl => exact .refl
  | tail _ h ih => exact ih.tail (h.imp (hE _ _) (hE _ _))

def Labels (E : V → V → Prop) (f : V → V) : Prop := ∀ x y, E x y → f x = f y

theorem Labels.path {f : V → V} (h : Labels E f) (hpath : ReflTransGen E x y) : f x = f y := by
  induction hpath with
  | refl => rfl
  | tail _ hyz ih => exact ih.trans (h _ _ hyz)

/-- With `c` put between `u` and `v`. -/
def Via (E : V → V → Prop) (u c v : V) (x y : V) : Prop := E x y ∨ (x = u ∧ y = c) ∨ (x = c ∧ y = v)

section
variable (hfresh : ∀ x, ¬ E x c ∧ ¬ E c x) (hu : u ≠ c) (hv : v ≠ c)
include hfresh hu hv

open Classical in
theorem Ranked.via (h : Ranked E) (hpath : ¬ ReflTransGen E v u) : Ranked (Via E u c v) := by
  obtain ⟨r, hr⟩ := h
  -- what `v` reaches moves above `u`
  let r' := fun x => if x = c then r u + 1 else if ReflTransGen E v x then r x + r u + 2 else r x
  have hru : r' u = r u := by simp [r', hu, hpath]
  have hrv : r' v = r v + r u + 2 := by simp [r', hv, ReflTransGen.refl]
  have hrc : r' c = r u + 1 := by simp [r']
  refine ⟨r', fun x y hxy => ?_⟩
  obtain hxy | ⟨rfl, rfl⟩ | ⟨rfl, rfl⟩ := hxy
  · have hx : x ≠ c := fun hx => (hfresh y).2 (hx ▸ hxy)
    have hy : y ≠ c := fun hy => (hfresh x).1 (hy ▸ hxy)
    have hlt := hr x y hxy
    simp only [r', if_neg hx, if_neg hy]
    split
    · rename_i hreach
      rw [if_pos (hreach.tail hxy)]
      omega
    · split <;> omega
  · omega
  · omega

end

theorem weak_via_ends : Weak (Via E u c v) u v :=
  (ReflTransGen.single (.inl (.inr (.inl ⟨rfl, rfl⟩)))).tail (.inl (.inr (.inr ⟨rfl, rfl⟩)))

open Classical in
theorem Ranked.before (h : Ranked E) (hfresh : ∀ x, ¬ E x c ∧ ¬ E c x) (hv : v ≠ c) :
    Ranked fun x y => E x y ∨ (x = c ∧ y = v) := by
  obtain ⟨r, hr⟩ := h
  refine ⟨fun x => if x = c then 0 else r x + 1, fun x y hxy => ?_⟩
  obtain hxy | ⟨rfl, rfl⟩ := hxy
  · have hx : x ≠ c := fun hx => (hfresh y).2 (hx ▸ hxy)
    have hy : y ≠ c := fun hy => (hfresh x).1 (hy ▸ hxy)
    simp only [if_neg hx, if_neg hy]
    exact Nat.succ_lt_succ (hr x y hxy)
  · simp [hv]

open Classical in
theorem Ranked.behind (h : Ranked E) (hfresh : ∀ x, ¬ E x c ∧ ¬ E c x) (hv : v ≠ c) :
    Ranked fun x y => E x y ∨ (x = v ∧ y = c) := by
  obtain ⟨r, hr⟩ := h
  refine ⟨fun x => if x = c then r v + 1 else r x, fun x y hxy => ?_⟩
  obtain hxy | ⟨rfl, rfl⟩ := hxy
  · have hx : x ≠ c := fun hx => (hfresh y).2 (hx ▸ hxy)
    have hy : y ≠ c := fun hy => (hfresh x).1 (hy ▸ hxy)
    simp only [if_neg hx, if_neg hy]
    exact hr x y hxy
  · simp [hv]

def relabel [DecidableEq V] (f : V → V) (u c v : V) (x : V) : V :=
  if x = c then f u else if f x = f v then f u else f x

theorem Labels.via [DecidableEq V] {f : V → V} (h : Labels E f) (hfresh : ∀ x, ¬ E x c ∧ ¬ E c x) (hu : u ≠ c)
    (hv : v ≠ c) : Labels (Via E u c v) (relabel f u c v) := by
  intro x y hxy
  unfold relabel
  obtain hxy | ⟨rfl, rfl⟩ | ⟨rfl, rfl⟩ := hxy
  · have hx : x ≠ c := fun hx => (hfresh y).2 (hx ▸ hxy)
    have hy : y ≠ c := fun hy => (hfresh x).1 (hy ▸ hxy)
    rw [if_neg hx, if_neg hy, h x y hxy]
  · rw [if_neg hu, if_pos rfl]
    split <;> rfl
  · rw [if_pos rfl, if_neg hv, if_pos rfl]

end Digraph
