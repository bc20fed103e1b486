import Mathlib.Data.List.Basic

/-!
# Taking elements out of lists

`removeFirst p n l` lacks the first `n` elements of `l` that satisfy `p`; all
others keep their order. `tabulate f n` lists the values of a partial function
below `n`.
-/

namespace Pick

variable {α : Type} {p q : α → Bool}

def removeFirst (p : α → Bool) : Nat → List α → List α
  | 0, l => l
  | _ + 1, [] => []
  | n + 1, a :: l => if p a then removeFirst p n l else a :: removeFirst p (n + 1) l

@[simp] theorem removeFirst_zero (l : List α) : removeFirst p 0 l = l := by
  cases l <;> rfl

theorem removeFirst_sublist (n : Nat) (l : List α) : (removeFirst p n l).Sublist l := by
  induction l generalizing n with
  | nil => cases n <;> exact List.Sublist.refl _
  | cons a l ih =>
    cases n with
    | zero => rw [removeFirst_zero]
    | succ n =>
      rw [removeFirst]
      split
      · exact (ih n).cons a
      · exact (ih (n + 1)).cons_cons a

theorem filter_removeFirst (n : Nat) (l : List α) : (removeFirst p n l).filter p = (l.filter p).drop n := by
  induction l generalizing n with
  | nil => cases n <;> simp [removeFirst]
  | cons a l ih =>
    cases n with
    | zero => simp
    | succ n =>
      by_cases ha : p a = true
      · simp [removeFirst, ha, ih]
      · simp [removeFirst, ha, ih]

theorem filter_removeFirst_other (h : ∀ a, p a = true → q a = false) (n : Nat) (l : List α) :
    (removeFirst p n l).filter q = l.filter q := by
  induction l generalizing n with
  | nil => cases n <;> simp [removeFirst]
  | cons a l ih =>
    cases n with
    | zero => simp
    | succ n =>
      by_cases ha : p a = true
      · simp [removeFirst, ha, h a ha, ih]
      · simp [removeFirst, ha, List.filter_cons, ih]

theorem countP_removeFirst (n : Nat) (l : List α) : (removeFirst p n l).countP p = l.countP p - n := by
  rw [List.countP_eq_length_filter, filter_removeFirst, List.length_drop, List.countP_eq_length_filter]

theorem countP_removeFirst_other (h : ∀ a, p a = true → q a = false) (n : Nat) (l : List α) :
    (removeFirst p n l).countP q = l.countP q := by
  rw [List.countP_eq_length_filter, filter_removeFirst_other h, List.countP_eq_length_filter]

theorem length_removeFirst {n : Nat} {l : List α} (h : n ≤ l.countP p) :
    (removeFirst p n l).length + n = l.length := by
  induction l generalizing n with
  | nil =>
    rw [List.countP_nil] at h
    cases n with
    | zero => rfl
    | succ n => cases h
  | cons a l ih =>
    cases n with
    | zero => simp
    | succ n =>
      by_cases ha : p a = true
      · rw [List.countP_cons_of_pos ha] at h
        have := ih (n := n) (by omega)
        simp only [removeFirst, ha, if_true, List.length_cons]
        omega
      · rw [List.countP_cons_of_neg ha] at h
        have := ih h
        simp only [removeFirst, ha, List.length_cons]
        simp only [Bool.false_eq_true, if_false, List.length_cons]
        omega

theorem removeFirst_append {n : Nat} {l l' : List α} (h : n ≤ l.countP p) :
    removeFirst p n (l ++ l') = removeFirst p n l ++ l' := by
  induction l generalizing n with
  | nil =>
    rw [List.countP_nil] at h
    cases n with
    | zero => simp
    | succ n => cases h
  | cons a l ih =>
    cases n with
    | zero => simp
    | succ n =>
      by_cases ha : p a = true
      · rw [List.countP_cons_of_pos ha] at h
        simp [removeFirst, ha, ih (n := n) (by omega)]
      · rw [List.countP_cons_of_neg ha] at h
        simp [removeFirst, ha, ih h]

theorem removeFirst_split {n : Nat} {l : List α} (h : n < l.countP p) :
    ∃ l₁ a l₂, l = l₁ ++ a :: l₂ ∧ p a = true ∧ l₁.countP p = n ∧
      removeFirst p (n + 1) l = l₁.filter (fun x => !p x) ++ l₂ := by
  induction l generalizing n with
  | nil => cases h
  | cons a l ih =>
    by_cases ha : p a = true
    · rw [List.countP_cons_of_pos ha] at h
      cases n with
      | zero => exact ⟨[], a, l, rfl, ha, rfl, by simp [removeFirst, ha]⟩
      | succ n =>
        obtain ⟨l₁, x, l₂, rfl, hx, hcount, heq⟩ := ih (n := n) (by omega)
        refine ⟨a :: l₁, x, l₂, rfl, hx, ?_, ?_⟩
        · rw [List.countP_cons_of_pos ha, hcount]
        · simp [removeFirst, ha, heq]
    · rw [List.countP_cons_of_neg ha] at h
      obtain ⟨l₁, x, l₂, rfl, hx, hcount, heq⟩ := ih h
      refine ⟨a :: l₁, x, l₂, rfl, hx, ?_, ?_⟩
      · rw [List.countP_cons_of_neg ha, hcount]
      · simp [removeFirst, ha, heq]

theorem countP_take_drop (p : α → Bool) (l : List α) (n : Nat) :
    l.countP p = (l.take n).countP p + (l.drop n).countP p := by
  rw [← List.countP_append, List.take_append_drop]

/-! ## Tables -/

def tabulate (f : Nat → Option α) (n : Nat) : List α := (List.range n).filterMap f

variable {f : Nat → Option α} {n : Nat}

theorem tabulate_succ {a : α} (h : f n = some a) : tabulate f (n + 1) = tabulate f n ++ [a] := by
  rw [tabulate, List.range_succ, List.filterMap_append]
  simp [tabulate, h]

theorem length_tabulate (h : ∀ i < n, (f i).isSome) : (tabulate f n).length = n := by
  induction n with
  | zero => rfl
  | succ n ih =>
    obtain ⟨a, ha⟩ := Option.isSome_iff_exists.mp (h n (by omega))
    rw [tabulate_succ ha, List.length_append, ih fun i hi => h i (by omega)]
    rfl

theorem getElem?_tabulate (h : ∀ i < n, (f i).isSome) {i : Nat} (hi : i < n) : (tabulate f n)[i]? = f i := by
  induction n with
  | zero => exact absurd hi (Nat.not_lt_zero i)
  | succ n ih =>
    obtain ⟨a, ha⟩ := Option.isSome_iff_exists.mp (h n (by omega))
    have hlen := length_tabulate fun i hi => h i (show i < n + 1 by omega)
    rw [tabulate_succ ha, List.length_append, List.length_singleton] at hlen
    rw [tabulate_succ ha]
    by_cases hn : i < n
    · rw [List.getElem?_append_left (by omega)]
      exact ih (fun j hj => h j (by omega)) hn
    · obtain rfl : i = n := by omega
      rw [List.getElem?_append_right (by omega), show i - (tabulate f i).length = 0 by omega, ha]
      rfl

end Pick
