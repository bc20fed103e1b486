import Mathlib.Data.List.Nodup

/-!
# Lists whose places have labels

A list that grows at its end and is changed in place, described by a list of labels and what
each label stands for. The place of a label does not move when the list grows.
-/

structure Labelled {K V : Type} (L : List K) (info : K → Option V) (vs : List V) : Prop where
  nodup : L.Nodup
  map : vs.map some = L.map info

namespace Labelled

variable {K V : Type} {L : List K} {info info' : K → Option V} {vs : List V} {k k' : K} {v : V}

theorem nil : Labelled ([] : List K) info [] := ⟨List.nodup_nil, rfl⟩

theorem length_eq (h : Labelled L info vs) : vs.length = L.length := by
  simpa using congrArg List.length h.map

theorem congr (h : Labelled L info vs) (hinfo : ∀ k ∈ L, info' k = info k) : Labelled L info' vs := by
  refine ⟨h.nodup, ?_⟩
  rw [h.map]
  exact List.map_congr_left fun k hk => (hinfo k hk).symm

theorem concat (h : Labelled L info vs) (hk : k ∉ L) (hinfo : ∀ k ∈ L, info' k = info k) (hv : info' k = some v) :
    Labelled (L ++ [k]) info' (vs ++ [v]) := by
  refine ⟨?_, ?_⟩
  · rw [List.nodup_append]
    refine ⟨h.nodup, List.nodup_singleton k, ?_⟩
    intro a ha b hb heq
    rw [List.mem_singleton] at hb
    exact hk (hb ▸ heq ▸ ha)
  · rw [List.map_append, List.map_append, (h.congr hinfo).map]
    simp [hv]

variable [DecidableEq K]

theorem get (h : Labelled L info vs) (hk : k ∈ L) : vs[L.idxOf k]? = info k := by
  have hget : (vs.map some)[L.idxOf k]? = (L.map info)[L.idxOf k]? := by rw [h.map]
  rw [List.getElem?_map, List.getElem?_map, List.getElem?_idxOf hk] at hget
  have hlt : L.idxOf k < vs.length := by
    rw [h.length_eq]
    exact List.idxOf_lt_length_iff.mpr hk
  rw [List.getElem?_eq_getElem hlt] at hget ⊢
  simpa using hget

theorem of_get {i : Nat} (h : Labelled L info vs) (hi : vs[i]? = some v) :
    ∃ k ∈ L, L.idxOf k = i ∧ info k = some v := by
  obtain ⟨hlt, _⟩ := List.getElem?_eq_some_iff.mp hi
  rw [h.length_eq] at hlt
  have hidx : L.idxOf L[i] = i := h.nodup.idxOf_getElem i hlt
  refine ⟨L[i], List.getElem_mem hlt, hidx, ?_⟩
  rw [← h.get (List.getElem_mem hlt), hidx, hi]

theorem of_mem (h : Labelled L info vs) (hv : v ∈ vs) : ∃ k ∈ L, info k = some v := by
  obtain ⟨i, hi⟩ := List.mem_iff_getElem?.mp hv
  obtain ⟨k, hk, _, hinfo⟩ := h.of_get hi
  exact ⟨k, hk, hinfo⟩

theorem mem (h : Labelled L info vs) (hk : k ∈ L) (hv : info k = some v) : v ∈ vs :=
  List.mem_of_getElem? (h.get hk ▸ hv)

theorem isSome (h : Labelled L info vs) (hk : k ∈ L) : (info k).isSome := by
  have hlt : L.idxOf k < vs.length := by
    rw [h.length_eq]
    exact List.idxOf_lt_length_iff.mpr hk
  rw [← h.get hk, List.getElem?_eq_getElem hlt]
  rfl

theorem set (h : Labelled L info vs) (hinfo : ∀ k' ∈ L, k' ≠ k → info' k' = info k')
    (hv : info' k = some v) : Labelled L info' (vs.set (L.idxOf k) v) := by
  refine ⟨h.nodup, ?_⟩
  rw [List.map_set, h.map]
  refine List.ext_getElem (by simp) ?_
  intro i hi hi'
  rw [List.length_map] at hi'
  rw [List.getElem_set, List.getElem_map, List.getElem_map]
  by_cases heq : L.idxOf k = i
  · subst heq
    rw [if_pos rfl, List.getElem_idxOf, hv]
  · rw [if_neg heq, hinfo _ (List.getElem_mem hi')]
    intro hki
    rw [← hki] at heq
    exact heq (h.nodup.idxOf_getElem i hi')

omit [DecidableEq K] in
/-- A filter by value is a filter by label. -/
theorem filter_map (h : Labelled L info vs) {p : V → Bool} {q : K → Bool}
    (hpq : ∀ k ∈ L, ∀ v, info k = some v → p v = q k) : (vs.filter p).map some = (L.filter q).map info := by
  have hmap := h.map
  clear h
  induction L generalizing vs with
  | nil =>
    rw [List.map_nil, List.map_eq_nil_iff] at hmap
    subst hmap
    rfl
  | cons k L ih =>
    cases vs with
    | nil => cases hmap
    | cons v vs =>
      rw [List.map_cons, List.map_cons, List.cons.injEq] at hmap
      obtain ⟨hk, hmap⟩ := hmap
      have hrest := ih (fun k hk => hpq k (List.mem_cons_of_mem _ hk)) hmap
      rw [List.filter_cons, List.filter_cons, hpq k List.mem_cons_self v hk.symm]
      by_cases hq : q k
      · rw [if_pos hq, if_pos hq, List.map_cons, List.map_cons, hrest, hk]
      · rw [if_neg hq, if_neg hq, hrest]

theorem place_concat (h : Labelled L info vs) (hk : k ∉ L) : (L ++ [k]).idxOf k = vs.length := by
  rw [List.idxOf_append_of_notMem hk, List.idxOf_cons_self, h.length_eq]
  rfl

end Labelled
