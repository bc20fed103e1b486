import Mathlib.Data.List.Lex
import Mathlib.Data.List.Sort
import SysteMoC.Pointwise

/-!
# Enumerations

A list enumerates a relation from keys to values: it has the values of all keys,
in the lexicographic order of the keys.
-/

namespace Enumeration

variable {κ α β : Type} [LinearOrder κ] {P Q : List κ → α → Prop} {l l' : List α}

def Enumerates (P : List κ → α → Prop) (l : List α) : Prop :=
  ∃ keys : List (List κ), keys.Pairwise (· < ·) ∧ (∀ k, k ∈ keys ↔ ∃ a, P k a) ∧ List.Forall₂ P keys l

def Functional (P : List κ → α → Prop) : Prop := ∀ k a a', P k a → P k a' → a = a'

/-- `a` is the value with the least key among those with `c`. -/
def First (P : List κ → α → Prop) (c : α → Bool) (a : α) : Prop :=
  ∃ k, P k a ∧ c a = true ∧ ∀ k' < k, ∀ a', P k' a' → c a' = false

theorem Enumerates.congr (h : Enumerates P l) (hPQ : ∀ k a, P k a ↔ Q k a) : Enumerates Q l := by
  have : P = Q := by
    funext k a
    exact propext (hPQ k a)
  exact this ▸ h

theorem enumerates_nil (h : ∀ k a, ¬ P k a) : Enumerates P [] :=
  ⟨[], .nil, fun k => iff_of_false List.not_mem_nil fun ⟨a, ha⟩ => h k a ha, .nil⟩

theorem enumerates_singleton (a : α) : Enumerates (fun (k : List κ) a' => k = [] ∧ a' = a) [a] := by
  refine ⟨[[]], List.pairwise_singleton _ _, fun k => ?_, .cons ⟨rfl, rfl⟩ .nil⟩
  simp

theorem Enumerates.mem_iff (h : Enumerates P l) (hP : Functional P) {a : α} : a ∈ l ↔ ∃ k, P k a := by
  obtain ⟨keys, _, hmem, hall⟩ := h
  constructor
  · intro ha
    obtain ⟨k, _, hk⟩ := (Pointwise.forall₂_mem hall).2 a ha
    exact ⟨k, hk⟩
  · rintro ⟨k, hk⟩
    obtain ⟨a', ha', hk'⟩ := (Pointwise.forall₂_mem hall).1 k ((hmem k).mpr ⟨a, hk⟩)
    exact hP k a' a hk' hk ▸ ha'

theorem Enumerates.append (h : Enumerates P l) (h' : Enumerates Q l') (hlt : ∀ k k' a a', P k a → Q k' a' → k < k') :
    Enumerates (fun k a => P k a ∨ Q k a) (l ++ l') := by
  obtain ⟨keys, hsort, hmem, hall⟩ := h
  obtain ⟨keys', hsort', hmem', hall'⟩ := h'
  refine ⟨keys ++ keys', List.pairwise_append.mpr ⟨hsort, hsort', fun k hk k' hk' => ?_⟩, fun k => ?_, ?_⟩
  · obtain ⟨a, ha⟩ := (hmem k).mp hk
    obtain ⟨a', ha'⟩ := (hmem' k').mp hk'
    exact hlt k k' a a' ha ha'
  · rw [List.mem_append, hmem, hmem']
    simp only [exists_or]
  · exact List.rel_append (hall.imp fun _ _ => .inl) (hall'.imp fun _ _ => .inr)

theorem Enumerates.cons (h : Enumerates P l) (i : κ) : Enumerates (fun k a => ∃ p, k = i :: p ∧ P p a) l := by
  obtain ⟨keys, hsort, hmem, hall⟩ := h
  refine ⟨keys.map (i :: ·), ?_, fun k => ?_, ?_⟩
  · rw [List.pairwise_map]
    exact hsort.imp fun hlt => List.cons_lt_cons_iff.mpr (.inr ⟨rfl, hlt⟩)
  · rw [List.mem_map]
    constructor
    · rintro ⟨p, hp, rfl⟩
      obtain ⟨a, ha⟩ := (hmem p).mp hp
      exact ⟨a, p, rfl, ha⟩
    · rintro ⟨a, p, rfl, ha⟩
      exact ⟨p, (hmem p).mpr ⟨a, ha⟩, rfl⟩
  · rw [List.forall₂_map_left_iff]
    exact hall.imp fun p a ha => ⟨p, rfl, ha⟩

theorem Enumerates.rel {R : α → β → Prop} {l' : List β} (h : Enumerates P l) (hR : List.Forall₂ R l l') :
    Enumerates (fun k b => ∃ a, P k a ∧ R a b) l' := by
  obtain ⟨keys, hsort, hmem, hall⟩ := h
  have hcomp : List.Forall₂ (fun k b => ∃ a, P k a ∧ R a b) keys l' := by
    clear hsort hmem
    induction hall generalizing l' with
    | nil =>
      cases hR
      exact .nil
    | cons hka _ ih =>
      obtain _ | ⟨hab, hR⟩ := hR
      exact .cons ⟨_, hka, hab⟩ (ih hR)
  refine ⟨keys, hsort, fun k => ?_, hcomp⟩
  constructor
  · intro hk
    obtain ⟨b, _, hb⟩ := (Pointwise.forall₂_mem hcomp).1 k hk
    exact ⟨b, hb⟩
  · rintro ⟨b, a, ha, _⟩
    exact (hmem k).mpr ⟨a, ha⟩

theorem Enumerates.unique (h : Enumerates P l) (h' : Enumerates P l') (hP : Functional P) : l = l' := by
  obtain ⟨keys, hsort, hmem, hall⟩ := h
  obtain ⟨keys', hsort', hmem', hall'⟩ := h'
  have hkeys : keys = keys' := by
    refine List.Perm.eq_of_pairwise (fun a b _ _ (hab : a < b) (hba : b < a) => absurd hba (lt_asymm hab)) hsort hsort' ?_
    rw [List.perm_ext_iff_of_nodup (hsort.imp fun hlt => ne_of_lt hlt) (hsort'.imp fun hlt => ne_of_lt hlt)]
    exact fun k => (hmem k).trans (hmem' k).symm
  subst hkeys
  clear hsort hsort' hmem hmem'
  induction hall generalizing l' with
  | nil =>
    cases hall'
    rfl
  | cons hka _ ih =>
    obtain _ | ⟨hka', hall'⟩ := hall'
    rw [hP _ _ _ hka hka', ih hall']

theorem enumerates_flatten {P : β → List Nat → α → Prop} {sources : List β} {rows : List (List α)} (n : Nat)
    (h : List.Forall₂ (fun b row => Enumerates (P b) row) sources rows) :
    Enumerates (fun k a => ∃ i b p, sources[i]? = some b ∧ k = (n + i) :: p ∧ P b p a) rows.flatten := by
  induction h generalizing n with
  | nil => exact enumerates_nil fun k a ⟨i, b, p, hb, _⟩ => by cases hb
  | @cons b row sources rows hrow _ ih =>
    refine ((hrow.cons n).append (ih (n + 1)) ?_).congr fun k a => ?_
    · rintro k k' a a' ⟨p, rfl, _⟩ ⟨i, b', p', _, rfl, _⟩
      exact List.cons_lt_cons_iff.mpr (.inl (by omega))
    · constructor
      · rintro (⟨p, rfl, ha⟩ | ⟨i, b', p, hb', rfl, ha⟩)
        · exact ⟨0, b, p, rfl, rfl, ha⟩
        · exact ⟨i + 1, b', p, hb', by rw [Nat.add_right_comm, Nat.add_assoc], ha⟩
      · rintro ⟨i, b', p, hb', rfl, ha⟩
        cases i with
        | zero =>
          cases hb'
          exact .inl ⟨p, rfl, ha⟩
        | succ i => exact .inr ⟨i, b', p, hb', by rw [Nat.add_right_comm, Nat.add_assoc], ha⟩

/-! ## Search -/

theorem find?_eq_some_iff (h : Enumerates P l) (hP : Functional P) (c : α → Bool) (a : α) :
    l.find? c = some a ↔ First P c a := by
  obtain ⟨keys, hsort, hmem, hall⟩ := h
  rw [First]
  have hfind : l.find? c = some a ↔ ∃ k ∈ keys, P k a ∧ c a = true ∧ ∀ k' ∈ keys, k' < k → ∀ a', P k' a' → c a' = false := by
    clear hmem
    induction hall with
    | nil => simp
    | @cons k b keys l hkb hall ih =>
      obtain ⟨hk, hsort⟩ := List.pairwise_cons.mp hsort
      by_cases hb : c b = true
      · rw [List.find?_cons_of_pos hb, Option.some.injEq]
        constructor
        · rintro rfl
          refine ⟨k, List.mem_cons_self, hkb, hb, fun k' hk' hlt => ?_⟩
          rcases List.mem_cons.mp hk' with rfl | hk'
          · exact absurd hlt (lt_irrefl _)
          · exact absurd hlt (lt_asymm (hk k' hk'))
        · rintro ⟨k', hk', ha, _, hleast⟩
          rcases List.mem_cons.mp hk' with rfl | hk'
          · exact hP _ _ _ hkb ha
          · rw [hleast k List.mem_cons_self (hk k' hk') b hkb] at hb
            cases hb
      · rw [List.find?_cons_of_neg hb, ih hsort]
        constructor
        · rintro ⟨k', hk', ha, hca, hleast⟩
          refine ⟨k', List.mem_cons_of_mem k hk', ha, hca, fun k'' hk'' hlt b' hb' => ?_⟩
          rcases List.mem_cons.mp hk'' with rfl | hk''
          · rw [← hP _ _ _ hkb hb']
            exact Bool.not_eq_true _ ▸ hb
          · exact hleast k'' hk'' hlt b' hb'
        · rintro ⟨k', hk', ha, hca, hleast⟩
          rcases List.mem_cons.mp hk' with rfl | hk'
          · rw [← hP _ _ _ hkb ha] at hca
            exact absurd hca hb
          · exact ⟨k', hk', ha, hca, fun k'' hk'' => hleast k'' (List.mem_cons_of_mem k hk'')⟩
  rw [hfind]
  constructor
  · rintro ⟨k, hk, ha, hca, hleast⟩
    exact ⟨k, ha, hca, fun k' hlt a' ha' => hleast k' ((hmem k').mpr ⟨a', ha'⟩) hlt a' ha'⟩
  · rintro ⟨k, ha, hca, hleast⟩
    exact ⟨k, (hmem k).mpr ⟨a, ha⟩, ha, hca, fun k' _ hlt a' ha' => hleast k' hlt a' ha'⟩

end Enumeration
