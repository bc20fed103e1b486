import SysteMoC.CachedChoice

/-!
# Choices that do not vanish

Where the calls that make events inactive come first and cover every guard that
changes, a party that is told of an active set still has its choice enabled.
-/

namespace CachedChoice

section
variable {E T : Type}

/-- The calls that reset are made first, and no call renotifies. -/
structure Sorted (calls : List (E × Call)) : Prop where
  plain : ∀ c ∈ calls, c.2 ≠ .renotify
  order : calls.Pairwise fun c c' => c.2 = .notify → c'.2 = .notify

theorem sorted_nil : Sorted ([] : List (E × Call)) := ⟨by simp, List.Pairwise.nil⟩

theorem sorted_append {rs ns : List (E × Call)} (hr : ∀ c ∈ rs, c.2 = .reset) (hn : ∀ c ∈ ns, c.2 = .notify) :
    Sorted (rs ++ ns) := by
  refine ⟨fun c hc hren => ?_, List.pairwise_append.mpr ⟨?_, ?_, ?_⟩⟩
  · rcases List.mem_append.mp hc with hc | hc
    · rw [hr c hc] at hren
      cases hren
    · rw [hn c hc] at hren
      cases hren
  · refine List.pairwise_of_forall_mem_list fun c hc c' _ hnot => ?_
    rw [hr c hc] at hnot
    cases hnot
  · exact List.pairwise_of_forall_mem_list fun _ _ c' hc' _ => hn c' hc'
  · exact fun _ _ c' hc' _ => hn c' hc'

theorem sorted_notify {ns : List (E × Call)} (hn : ∀ c ∈ ns, c.2 = .notify) : Sorted ns := by
  have hsorted := sorted_append (fun c hc => absurd hc List.not_mem_nil) hn
  rwa [List.nil_append] at hsorted

theorem Sorted.tail {c : E × Call} {calls : List (E × Call)} (h : Sorted (c :: calls)) : Sorted calls :=
  ⟨fun c' hc' => h.plain c' (List.mem_cons_of_mem _ hc'), (List.pairwise_cons.mp h.order).2⟩

/-- The sets that are signalled are all awake, with no reset to come, or none of them is. -/
def Turned (active : E → Bool) (calls : List (E × Call)) (signalled : Finset E → Prop) : Prop :=
  (∀ w, signalled w → ¬ Awake active w) ∨ (∀ c ∈ calls, c.2 = .notify) ∧ ∀ w, signalled w → Awake active w

variable {active active' : E → Bool} {c : E × Call} {calls : List (E × Call)} {signalled : Finset E → Prop}

theorem turned_none (h : ∀ w, ¬ signalled w) : Turned active calls signalled := .inl fun w hw => absurd hw (h w)

theorem Turned.mono {signalled' : Finset E → Prop} (h : Turned active calls signalled) (hs : ∀ w, signalled' w → signalled w) :
    Turned active calls signalled' := by
  rcases h with h | ⟨hn, h⟩
  · exact .inl fun w hw => h w (hs w hw)
  · exact .inr ⟨hn, fun w hw => h w (hs w hw)⟩

theorem Turned.notify {w : Finset E} (h : Turned active calls signalled) (hw : signalled w) (ha : Awake active w) :
    ∀ c ∈ calls, c.2 = .notify := by
  rcases h with h | ⟨hn, _⟩
  · exact absurd ha (h w hw)
  · exact hn

theorem Sorted.turned (h : Sorted (c :: calls)) (hc : Made c active active')
    (hsig : ∀ w, signalled w → Signalled c active active' w) : Turned active' calls signalled := by
  have hren : c.2 ≠ .renotify := h.plain c List.mem_cons_self
  cases hcall : c.2 with
  | notify =>
    refine .inr ⟨fun c' hc' => (List.pairwise_cons.mp h.order).1 c' hc' hcall, fun w hw => ?_⟩
    rcases hsig w hw with hchange | ⟨hr, _⟩
    · by_contra ha
      exact hchange ⟨fun h => absurd (hc.awake (by rw [hcall]; simp) h) ha, fun h => absurd h ha⟩
    · exact absurd hr hren
  | reset =>
    refine .inl fun w hw ha => ?_
    rcases hsig w hw with hchange | ⟨hr, _⟩
    · by_cases hm : c.1 ∈ w
      · exact hc.not_awake hcall hm ha
      · exact hchange (hc.awake_of_notMem hm).symm
    · exact hren hr
  | renotify => exact absurd hcall hren

/-- What is chosen is enabled, or a reset will tell that it is not, or one has. -/
def Kept (o : Options E T) (active : E → Bool) (calls : List (E × Call)) (signals : Finset (Finset E)) (ct : Option T) : Prop :=
  ∀ t, ct = some t → t ∈ o.list ∧ (o.enabled active t = true ∨ Awake active (o.events t) ∧ Doomed calls (o.events t) ∨
    ¬ Awake active (o.events t) ∧ o.events t ∈ signals)

variable {o o' : Options E T} {w : Finset E} {signals : Finset (Finset E)} {ct : Option T}

theorem kept_searched : Kept o active calls signals (o.list.find? (o.enabled active)) := by
  intro t ht
  exact ⟨List.mem_of_find?_eq_some ht, .inl (List.find?_some ht)⟩

theorem kept_none : Kept o active calls signals none := by
  intro t ht
  cases ht

theorem Kept.find_isSome (h : Kept o active calls signals ct) (hturned : Turned active calls fun w => w ∈ signals)
    (hw : w ∈ signals)
    (ha : Awake active w) (hct : ct.isSome) : (o.list.find? (o.enabled active)).isSome := by
  obtain ⟨t, ht⟩ := Option.isSome_iff_exists.mp hct
  obtain ⟨hmem, hen | ⟨_, e, _, hreset⟩ | ⟨hnot, hsig⟩⟩ := h t ht
  · exact List.find?_isSome.mpr ⟨t, hmem, hen⟩
  · cases hturned.notify hw ha _ hreset
  · rcases hturned with h | ⟨_, h⟩
    · exact absurd ha (h w hw)
    · exact absurd (h _ hsig) hnot

theorem kept_changed (hct : ct = o.list.find? (o.enabled active)) (hlist : o'.list = o.list) (hevents : o'.events = o.events)
    (hguard : ∀ t ∈ o.list, Awake active (o.events t) → o'.guard t ≠ o.guard t → Doomed calls (o.events t)) :
    Kept o' active calls signals ct := by
  intro t ht
  rw [hct] at ht
  have hmem := List.mem_of_find?_eq_some ht
  have hen := enabled_iff.mp (List.find?_some ht)
  rw [hlist, hevents, enabled_iff, hevents]
  refine ⟨hmem, ?_⟩
  by_cases hsame : o'.guard t = o.guard t
  · rw [hsame]
    exact .inl hen
  · exact .inr (.inl ⟨hen.1, hguard t hmem hen.1 hsame⟩)

theorem Kept.called (h : Kept o active (c :: calls) ∅ ct) (hc : Made c active active')
    (hsig : ∀ t ∈ o.list, Signalled c active active' (o.events t) → o.events t ∈ signals) : Kept o active' calls signals ct := by
  intro t ht
  obtain ⟨hmem, hold⟩ := h t ht
  refine ⟨hmem, ?_⟩
  have hawake : Awake active (o.events t) := by
    rcases hold with hen | ⟨ha, _⟩ | ⟨_, hs⟩
    · exact (enabled_iff.mp hen).1
    · exact ha
    · cases hs
  by_cases ha : Awake active' (o.events t)
  · rcases hold with hen | ⟨_, hd⟩ | ⟨_, hs⟩
    · exact .inl (enabled_iff.mpr ⟨ha, (enabled_iff.mp hen).2⟩)
    · rcases doomed_cons.mp hd with ⟨hr, hm⟩ | hd
      · exact absurd ha (hc.not_awake hr hm)
      · exact .inr (.inl ⟨ha, hd⟩)
    · cases hs
  · exact .inr (.inr ⟨ha, hsig t hmem (.inl fun hiff => ha (hiff.mp hawake))⟩)

end

end CachedChoice
