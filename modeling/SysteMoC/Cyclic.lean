import Mathlib.Data.Nat.ModEq
import Mathlib.Data.List.Basic
import Mathlib.Logic.Function.Basic

/-!
# Positions on a ring and the lists its slots hold

Arithmetic on the positions of a ring of `m` slots, and the predicate
`Holds`: the slots from a position on carry a given list.
-/

namespace Cyclic

/-- The position `k` slots after `a`. -/
def add (m a k : Nat) : Nat := (a + k) % m

def sub (m a b : Nat) : Nat := (a + (m - b % m)) % m

variable {m a b j k x : Nat}

theorem add_lt (hm : 0 < m) : add m a k < m := Nat.mod_lt _ hm

theorem sub_lt (hm : 0 < m) : sub m a b < m := Nat.mod_lt _ hm

theorem add_eq (ha : a < m) (hk : k ≤ m) : add m a k = if a + k < m then a + k else a + k - m := by
  unfold add
  split
  · rename_i h; exact Nat.mod_eq_of_lt h
  · rename_i h
    rw [Nat.mod_eq_sub_mod (Nat.le_of_not_lt h), Nat.mod_eq_of_lt (by omega)]

theorem sub_eq (ha : a < m) (hb : b < m) : sub m a b = if b ≤ a then a - b else a + m - b := by
  unfold sub
  rw [Nat.mod_eq_of_lt hb]
  split
  · rename_i h
    rw [show a + (m - b) = (a - b) + m by omega, Nat.add_mod_right, Nat.mod_eq_of_lt (by omega)]
  · rw [show a + (m - b) = a + m - b by omega, Nat.mod_eq_of_lt (by omega)]

theorem add_zero (ha : a < m) : add m a 0 = a := Nat.mod_eq_of_lt ha

theorem add_add : add m (add m a j) k = add m a (j + k) := by
  unfold add; rw [Nat.mod_add_mod, Nat.add_assoc]

theorem add_self (ha : a < m) : add m a m = a := by
  unfold add; rw [Nat.add_mod_right, Nat.mod_eq_of_lt ha]

theorem sub_add_add (ha : a < m) (hjk : j ≤ k) (hk : k < m + j) (hkm : k ≤ m) :
    sub m (add m a k) (add m a j) = k - j := by
  have hm : 0 < m := Nat.lt_of_le_of_lt (Nat.zero_le a) ha
  rw [sub_eq (add_lt hm) (add_lt hm), add_eq ha hkm, add_eq ha (Nat.le_trans hjk hkm)]
  split <;> split <;> split <;> omega

theorem sub_add_self (ha : a < m) (hk : k < m) : sub m (add m a k) a = k := by
  have := sub_add_add ha (Nat.zero_le k) (by omega) (Nat.le_of_lt hk)
  rwa [add_zero ha, Nat.sub_zero] at this

theorem sub_one_add (ha : a < m) (hk : k < m) : sub m (add m a (k + 1)) 1 = add m a k := by
  rcases Nat.eq_or_lt_of_le (show 1 ≤ m by omega) with h1 | h1
  · have := sub_lt (a := add m a (k + 1)) (b := 1) (show 0 < m by omega)
    have := add_lt (a := a) (k := k) (show 0 < m by omega)
    omega
  · rw [sub_eq (add_lt (by omega)) h1, add_eq ha hk, add_eq ha (Nat.le_of_lt hk)]
    split <;> split <;> split <;> omega

theorem add_sub (ha : a < m) (hx : x < m) : add m a (sub m x a) = x := by
  rw [add_eq ha (Nat.le_of_lt (sub_lt (by omega))), sub_eq hx ha]
  split <;> split <;> omega

theorem add_inj (ha : a < m) (hj : j < m) (hk : k < m) : add m a j = add m a k ↔ j = k := by
  constructor
  · intro h
    have := congrArg (fun y => sub m y a) h
    simpa only [sub_add_self ha hj, sub_add_self ha hk] using this
  · rintro rfl; rfl

/-- `x` lies on the way from `a` to `b`. -/
def Between (m x a b : Nat) : Prop := sub m x a ≤ sub m b a

instance : Decidable (Between m x a b) := inferInstanceAs (Decidable (_ ≤ _))

/-! ## What the slots hold -/

section
variable {α : Type} {s : Nat → Option α} {l l' : List α}

/-- The slots from `a` on hold the elements of `l`. -/
def Holds (m : Nat) (s : Nat → Option α) (a : Nat) (l : List α) : Prop :=
  ∀ i < l.length, s (add m a i) = l[i]?

/-- The `n` slots from `a` on are empty. -/
def Clear (m : Nat) (s : Nat → Option α) (a n : Nat) : Prop :=
  ∀ i < n, s (add m a i) = none

theorem holds_nil : Holds m s a ([] : List α) := fun _ h => absurd h (Nat.not_lt_zero _)

theorem holds_append : Holds m s a (l ++ l') ↔ Holds m s a l ∧ Holds m s (add m a l.length) l' := by
  constructor
  · intro h
    refine ⟨fun i hi => ?_, fun i hi => ?_⟩
    · rw [h i (by rw [List.length_append]; omega), List.getElem?_append_left hi]
    · rw [add_add, h _ (by rw [List.length_append]; omega), List.getElem?_append_right (by omega)]
      congr 1; omega
  · rintro ⟨h, h'⟩ i hi
    rw [List.length_append] at hi
    by_cases hl : i < l.length
    · rw [h i hl, List.getElem?_append_left hl]
    · have := h' (i - l.length) (by omega)
      rw [add_add, show l.length + (i - l.length) = i by omega] at this
      rw [this, List.getElem?_append_right (by omega)]

theorem holds_take (h : Holds m s a l) (n : Nat) : Holds m s a (l.take n) := by
  rw [← List.take_append_drop n l, holds_append] at h
  exact h.1

theorem holds_drop (h : Holds m s a l) {n : Nat} (hn : n ≤ l.length) :
    Holds m s (add m a n) (l.drop n) := by
  rw [← List.take_append_drop n l, holds_append, List.length_take_of_le hn] at h
  exact h.2

theorem holds_update {x y : α} (ha : a < m) (hm : (l ++ x :: l').length ≤ m) (h : Holds m s a (l ++ x :: l')) :
    Holds m (Function.update s (add m a l.length) (some y)) a (l ++ y :: l') := by
  intro i hi
  have hlen : (l ++ x :: l').length = l.length + l'.length + 1 := by simp; omega
  have hlen' : (l ++ y :: l').length = l.length + l'.length + 1 := by simp; omega
  by_cases hil : i = l.length
  · subst hil
    rw [Function.update_self, List.getElem?_append_right (Nat.le_refl _), Nat.sub_self]
    rfl
  · have hne : add m a i ≠ add m a l.length := fun h' => hil ((add_inj ha (by omega) (by omega)).mp h')
    rw [Function.update_of_ne hne, h i (by omega)]
    by_cases hlt : i < l.length
    · rw [List.getElem?_append_left hlt, List.getElem?_append_left hlt]
    · rw [List.getElem?_append_right (by omega), List.getElem?_append_right (by omega)]
      obtain ⟨j, hj⟩ : ∃ j, i - l.length = j + 1 := ⟨i - l.length - 1, by omega⟩
      rw [hj, List.getElem?_cons_succ, List.getElem?_cons_succ]

theorem holds_congr {s' : Nat → Option α} (h : Holds m s a l)
    (hs : ∀ i < l.length, s' (add m a i) = s (add m a i)) : Holds m s' a l :=
  fun i hi => (hs i hi).trans (h i hi)

theorem clear_add {n n' : Nat} : Clear m s a (n + n') ↔ Clear m s a n ∧ Clear m s (add m a n) n' := by
  constructor
  · intro h
    exact ⟨fun i hi => h i (by omega), fun i hi => by rw [add_add]; exact h _ (by omega)⟩
  · rintro ⟨h, h'⟩ i hi
    by_cases hl : i < n
    · exact h i hl
    · have := h' (i - n) (by omega)
      rwa [add_add, show n + (i - n) = i by omega] at this

theorem update_other {v : Option α} (ha : a < m) (hj : j < m) (hk : k < m) (hjk : j ≠ k) :
    Function.update s (add m a k) v (add m a j) = s (add m a j) :=
  Function.update_of_ne (fun h => hjk ((add_inj ha hj hk).mp h)) _ _

end

end Cyclic
