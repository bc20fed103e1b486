import Mathlib.Data.List.Nodup

/-!
# Association lists as maps

New keys go to the end of the list; `lookup` finds the first entry of a key.
-/

namespace Assoc

variable {K V : Type} [BEq K] [LawfulBEq K] {m : List (K × V)} {k k' : K} {v v' : V}

theorem mem_of_lookup (h : m.lookup k = some v) : (k, v) ∈ m := by
  obtain ⟨l₁, l₂, rfl, _⟩ := List.lookup_eq_some_iff.mp h
  simp

theorem lookup_of_mem (hn : (m.map Prod.fst).Nodup) (h : (k, v) ∈ m) : m.lookup k = some v := by
  induction m with
  | nil => cases h
  | cons e m ih =>
    rw [List.map_cons, List.nodup_cons] at hn
    simp only [List.mem_cons] at h
    obtain rfl | h := h
    · exact List.lookup_cons_self
    · have hne : (k == e.1) = false := by
        rw [beq_eq_false_iff_ne]
        intro heq
        exact hn.1 (heq ▸ List.mem_map_of_mem h)
      rw [List.lookup_cons, hne]
      exact ih hn.2 h

theorem lookup_eq_none (h : k ∉ m.map Prod.fst) : m.lookup k = none := by
  rw [List.lookup_eq_none_iff]
  intro e he
  have : k ≠ e.1 := fun heq => h (heq ▸ List.mem_map_of_mem he)
  simpa using this

theorem lookup_concat_self (h : k ∉ m.map Prod.fst) : (m ++ [(k, v)]).lookup k = some v := by
  rw [List.lookup_append, lookup_eq_none h]
  simp

theorem lookup_concat_of_ne (h : k' ≠ k) : (m ++ [(k, v)]).lookup k' = m.lookup k' := by
  rw [List.lookup_append, List.lookup_cons, beq_false_of_ne h, List.lookup_nil, Option.or_none]

omit [LawfulBEq K] in
theorem lookup_concat_of_some (h : m.lookup k' = some v') : (m ++ [(k, v)]).lookup k' = some v' := by
  rw [List.lookup_append, h]
  rfl

omit [BEq K] [LawfulBEq K] in
theorem nodup_concat (hn : (m.map Prod.fst).Nodup) (h : k ∉ m.map Prod.fst) :
    ((m ++ [(k, v)]).map Prod.fst).Nodup := by
  rw [List.map_append, List.nodup_append]
  refine ⟨hn, List.nodup_singleton _, ?_⟩
  intro a ha b hb heq
  simp only [List.map_cons, List.map_nil, List.mem_singleton] at hb
  exact h (hb ▸ heq ▸ ha)

section
variable [DecidableEq K]

omit [BEq K] [LawfulBEq K] in
theorem keys_map_if (f : V → V) : ((m.map fun e => if e.1 = k then (e.1, f e.2) else e).map Prod.fst) = m.map Prod.fst := by
  rw [List.map_map]
  refine List.map_congr_left ?_
  intro e _
  by_cases he : e.1 = k
  · simp [he]
  · simp [he]

theorem lookup_map_if (f : V → V) : (m.map fun e => if e.1 = k then (e.1, f e.2) else e).lookup k' =
    if k' = k then (m.lookup k').map f else m.lookup k' := by
  induction m with
  | nil => simp
  | cons e m ih =>
    rw [List.map_cons, List.lookup_cons, List.lookup_cons, ih]
    by_cases he : e.1 = k
    · subst he
      by_cases hk : k' = e.1
      · simp [hk]
      · simp [hk, beq_false_of_ne hk]
    · by_cases hk : k' = k
      · subst hk
        simp [he, beq_false_of_ne (Ne.symm he)]
      · simp [he, hk]

end

end Assoc
