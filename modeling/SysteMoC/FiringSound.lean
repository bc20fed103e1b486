import SysteMoC.Firing

/-!
# What a check promises the firing

The events of a rule's pattern are independent thresholds: together they promise
the largest amount asked of each channel, not the sum of the amounts.
-/

namespace SysteMoC

section
variable {K : Type} [DecidableEq K] {l : List (K × Nat)} {k : K} {n : Nat}

theorem foldr_max_le {l : List Nat} : l.foldr max 0 ≤ n ↔ ∀ a ∈ l, a ≤ n := by
  induction l with
  | nil => simp
  | cons a l ih => simp [ih]

theorem mem_onChan : n ∈ onChan l k ↔ (k, n) ∈ l := by
  simp [onChan]

theorem onChan_cons_self : onChan ((k, n) :: l) k = n :: onChan l k := by
  simp [onChan]

theorem onChan_cons_of_ne {k' : K} (h : k' ≠ k) : onChan ((k', n) :: l) k = onChan l k := by
  simp [onChan, h]

end

theorem EventMapManager.Tracks.isActiveAt_eq {ε : Type} [SmocEvent ε] {em : EventMapManager ε} {count n : Nat}
    (h : em.Tracks count) (hn : n ∈ em.thresholds) : em.isActiveAt n = decide (n ≤ count) := by
  obtain ⟨p, hp, rfl⟩ := List.mem_map.mp hn
  obtain ⟨e, he⟩ : ∃ e, em.eventMap.lookup p.1 = some e := by
    apply Option.isSome_iff_exists.mp
    rw [List.lookup_isSome_iff]
    exact ⟨p, hp, beq_self_eq_true _⟩
  obtain ⟨l₁, l₂, hl, _⟩ := List.lookup_eq_some_iff.mp he
  rw [isActiveAt, he]
  exact h (p.1, e) (by rw [hl]; simp)

/-! ## The check -/

namespace Guard

variable {I O S K T ε : Type} [Token T] [SmocEvent ε] [LawfulEvent ε] [DecidableEq K] {b : Build} {kind : K → ChanKind}
  {depth : K → Nat} {rs : K → List EventRequest} {net : Ports I O K} {g : Guard I O S} {fr : RuntimeFiringRule I O S}
  {σ : K → FifoChan T ε} {s : S}

theorem ioPatternActive_iff (hfr : RuntimeFiringRule.new b g = some fr)
    (hσ : ∀ k, Elaborated (kind k) b (depth k) (rs k) (σ k)) (hrs : ∀ k, fr.requests net k ⊆ rs k) :
    fr.ioPatternActive net σ s = true ↔ (∀ e ∈ g.events, e s = true) ∧
      (∀ k, g.demand net k ≤ (σ k).visibleCount) ∧ ∀ k, g.space net k ≤ (σ k).freeCount := by
  rw [new_eq hfr] at hrs ⊢
  have hdata : ∀ k n, (k, n) ∈ reads net PortInInfo.required g.inputs →
      (σ k).emmData.isActiveAt n = decide (n ≤ (σ k).visibleCount) := by
    intro k n hn
    obtain ⟨⟨c, v, p, hc⟩, hmem, _⟩ := (hσ k).counted
    rw [hc.areas.visibleCount_eq]
    apply hc.data.isActiveAt_eq
    apply hmem
    apply hrs
    exact List.mem_append_left _ (List.mem_map_of_mem (mem_onChan.mpr hn))
  have hspace : ∀ k n, (k, n) ∈ writes net PortOutInfo.required g.outputs →
      (σ k).emmSpace.isActiveAt n = decide (n ≤ (σ k).freeCount) := by
    intro k n hn
    obtain ⟨⟨c, v, p, hc⟩, _, hmem⟩ := (hσ k).counted
    rw [hc.freeCount_eq]
    apply hc.space.isActiveAt_eq
    apply hmem
    apply hrs
    exact List.mem_append_right _ (List.mem_map_of_mem (mem_onChan.mpr hn))
  simp only [RuntimeFiringRule.ioPatternActive, Bool.and_eq_true, List.all_eq_true, and_assoc]
  refine and_congr_right fun _ => and_congr ⟨fun h k => foldr_max_le.mpr fun n hn => ?_, fun h a ha => ?_⟩
    ⟨fun h k => foldr_max_le.mpr fun n hn => ?_, fun h a ha => ?_⟩
  · have := h _ (mem_onChan.mp hn)
    rwa [hdata k n (mem_onChan.mp hn), decide_eq_true_eq] at this
  · rw [hdata a.1 a.2 ha, decide_eq_true_eq]
    exact foldr_max_le.mp (h a.1) a.2 (mem_onChan.mpr ha)
  · have := h _ (mem_onChan.mp hn)
    rwa [hspace k n (mem_onChan.mp hn), decide_eq_true_eq] at this
  · rw [hspace a.1 a.2 ha, decide_eq_true_eq]
    exact foldr_max_le.mp (h a.1) a.2 (mem_onChan.mpr ha)

end Guard

end SysteMoC
