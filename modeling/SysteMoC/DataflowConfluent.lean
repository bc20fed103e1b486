import SysteMoC.CachedChoice
import SysteMoC.Dataflow

/-!
# Dataflow nets whose results do not depend on the order

Where every channel has one reader and one writer and no actor changes its mind as its
channels fill and empty, firings of different actors commute.
-/

namespace SysteMoC

namespace Network

variable {A K Z Q T V D : Type} [DecidableEq K] [DecidableEq Z] {net : Network A K Z Q T V D} {depth depth' : K → Nat}
  {m m' m₁ m₂ : Marking A K Q V D} {a a' : A} {t t' : T} {k : K} {l : List D} {reader writer : K → A}

/-- For the actor, more tokens can be read and no fewer places are free. -/
structure Grows (net : Network A K Z Q T V D) (depth depth' : K → Nat) (a : A) (m m' : Marking A K Q V D) : Prop where
  state : m'.state a = m.state a
  vars : m'.vars a = m.vars a
  reads : ∀ t, ∀ info ∈ (net.rule a t).portInInfos, ∀ l ∈ m.queue info.port, ∃ l', m'.queue info.port = some (l ++ l')
  writes : ∀ t, ∀ info ∈ (net.rule a t).portOutInfos, ∀ k, info.Feeds k → ∀ l ∈ m.queue k,
    ∃ l' ∈ m'.queue k, l'.length + depth k ≤ l.length + depth' k

/-- No actor changes its mind as its channels fill and empty. -/
def Stable (net : Network A K Z Q T V D) (depth depth' : K → Nat) : Prop :=
  ∀ a m m' t, Grows net depth depth' a m m' → net.choice depth m a = some t → net.choice depth' m' a = some t

structure PointToPoint (net : Network A K Z Q T V D) (reader writer : K → A) : Prop where
  reads : ∀ a t, ∀ info ∈ (net.rule a t).portInInfos, reader info.port = a
  writes : ∀ a t, ∀ info ∈ (net.rule a t).portOutInfos, ∀ k, info.Feeds k → writer k = a

/-! ## Growing channels -/

omit [DecidableEq K] [DecidableEq Z] in
theorem Grows.ready (h : Grows net depth depth' a m m') (hr : Ready depth m (net.rule a t)) :
    Ready depth' m' (net.rule a t) := by
  refine ⟨fun info hinfo => ?_, fun info hinfo s hs k hk => ?_⟩
  · obtain ⟨l, hl, hlen⟩ := hr.1 info hinfo
    obtain ⟨l', hl'⟩ := h.reads t info hinfo l hl
    refine ⟨l ++ l', hl', ?_⟩
    rw [List.length_append]
    omega
  · obtain ⟨l, hl, hlen⟩ := hr.2 info hinfo s hs k hk
    obtain ⟨l', hl', hroom⟩ := h.writes t info hinfo k ⟨s, hs, Sum.getLeft?_eq_some_iff.mp hk⟩ l hl
    exact ⟨l', hl', by omega⟩

omit [DecidableEq K] [DecidableEq Z] in
/-- The tokens a rule reads are the first ones. -/
theorem Grows.heads (h : Grows net depth depth' a m m') (hr : Ready depth m (net.rule a t)) :
    Network.heads m' (net.rule a t) = Network.heads m (net.rule a t) := by
  refine List.map_congr_left fun info hinfo => List.map_congr_left fun i hi => ?_
  obtain ⟨l, hl, hlen⟩ := hr.1 info hinfo
  obtain ⟨l', hl'⟩ := h.reads t info hinfo l hl
  have hi := List.mem_range.mp hi
  rw [Option.mem_def.mp hl, hl', Option.bind_some, Option.bind_some, List.getElem?_append_left (by omega)]

/-- Actors whose transitions in a state all wait for the same events are stable. -/
theorem stable_of_waiter (h : ∀ a q, ∀ t ∈ net.transitions a q, ∀ t' ∈ net.transitions a q,
    (net.rule a t).ioPatternWaiter = (net.rule a t').ioPatternWaiter) : net.Stable depth depth' := by
  intro a m m' t hgrows hchoice
  obtain ⟨q, hq, ht, henabled⟩ := choice_eq_some hchoice
  have hready := ready_of_choice hchoice
  rw [choice, hq, Option.bind_some] at hchoice
  rw [choice, hgrows.state, hq, Option.bind_some, ← hchoice]
  refine CachedChoice.find?_congr fun t' ht' => ?_
  have hready' : Ready depth m (net.rule a t') := by
    rw [ready_iff, ← h a q t ht t' ht', ← ready_iff]
    exact hready
  rw [enabled, enabled, hgrows.heads hready', hgrows.vars, decide_eq_true hready', decide_eq_true (hgrows.ready hready')]

/-! ## Firings of two actors -/

omit [DecidableEq Z] in
theorem PointToPoint.consumption (h : net.PointToPoint reader writer) (hk : reader k ≠ a) :
    (net.rule a t).consumption k = 0 := by
  have hnil : onChan ((net.rule a t).portInInfos.map fun info => (info.port, info.consumed)) k = [] := by
    rw [onChan, List.map_eq_nil_iff, List.filter_eq_nil_iff]
    intro p hp heq
    obtain ⟨info, hinfo, rfl⟩ := List.mem_map.mp hp
    rw [← of_decide_eq_true heq] at hk
    exact hk (h.reads a t info hinfo)
  rw [RuntimeFiringRule.consumption, hnil]
  rfl

theorem PointToPoint.output (h : net.PointToPoint reader writer) (hk : writer k ≠ a) {writes : List (Nat × Nat × D)} :
    (net.rule a t).output writes k = [] := by
  have hfrom : ∀ (infos : List (PortOutInfo (List (K ⊕ Z)))) (j : Nat), (∀ info ∈ infos, ¬ info.Feeds k) →
      RuntimeFiringRule.outputFrom writes k j infos = [] := by
    intro infos
    induction infos with
    | nil => exact fun _ _ => rfl
    | cons info infos ih =>
      intro j hall
      rw [RuntimeFiringRule.outputFrom, if_neg (hall info List.mem_cons_self), List.nil_append]
      exact ih (j + 1) fun info' hinfo' => hall info' (List.mem_cons_of_mem _ hinfo')
  exact hfrom _ 0 fun info hinfo hfeeds => hk (h.writes a t info hinfo k hfeeds)

variable [DecidableEq A] [DecidableEq T]

omit [DecidableEq T] in
/-- A firing of another actor leaves what an actor sees, or adds to it. -/
theorem PointToPoint.grows (h : net.PointToPoint reader writer) (ha : a ≠ a') :
    Grows net depth depth a' m (net.fire m a t) where
  state := Function.update_of_ne ha.symm _ _
  vars := Function.update_of_ne ha.symm _ _
  reads t' info hinfo l hl := by
    refine ⟨(net.rule a t).output (net.action a t (m.vars a) (heads m (net.rule a t))).2 info.port, ?_⟩
    have hzero : (net.rule a t).consumption info.port = 0 := h.consumption (by rw [h.reads a' t' info hinfo]; exact ha.symm)
    rw [queue_fire, Option.mem_def.mp hl, hzero]
    rfl
  writes t' info hinfo k hk l hl := by
    have hnil : (net.rule a t).output (net.action a t (m.vars a) (heads m (net.rule a t))).2 k = [] :=
      h.output (by rw [h.writes a' t' info hinfo k hk]; exact ha.symm)
    refine ⟨l.drop ((net.rule a t).consumption k), ?_, ?_⟩
    · rw [queue_fire, Option.mem_def.mp hl, hnil, Option.map_some, List.append_nil]
      rfl
    · rw [List.length_drop]
      omega

omit [DecidableEq T] in
/-- Firings of different actors commute. -/
theorem PointToPoint.fire_comm (h : net.PointToPoint reader writer) (hreg : net.Regular) (ha : a ≠ a')
    (hr : Ready depth m (net.rule a t)) (hr' : Ready depth m (net.rule a' t')) :
    net.fire (net.fire m a t) a' t' = net.fire (net.fire m a' t') a t := by
  have hheads : heads (net.fire m a t) (net.rule a' t') = heads m (net.rule a' t') := (h.grows ha).heads hr'
  have hheads' : heads (net.fire m a' t') (net.rule a t) = heads m (net.rule a t) := (h.grows ha.symm).heads hr
  have hvars : (net.fire m a t).vars a' = m.vars a' := Function.update_of_ne ha.symm _ _
  have hvars' : (net.fire m a' t').vars a = m.vars a := Function.update_of_ne ha _ _
  have hqueue : (net.fire (net.fire m a t) a' t').queue = (net.fire (net.fire m a' t') a t).queue := by
    funext k
    rw [queue_fire, queue_fire, queue_fire, queue_fire, hheads, hheads', hvars, hvars', Option.map_map, Option.map_map]
    refine Option.map_congr fun l hl => ?_
    have hle := hr.consumption_le hreg hl
    have hle' := hr'.consumption_le hreg hl
    have hc : (net.rule a t).consumption k = 0 ∨ (net.rule a' t').consumption k = 0 := by
      by_cases hk : reader k = a
      · exact .inr (h.consumption (by rw [hk]; exact ha))
      · exact .inl (h.consumption hk)
    simp only [Function.comp_apply]
    rw [List.drop_append_of_le_length (by rw [List.length_drop]; omega),
      List.drop_append_of_le_length (by rw [List.length_drop]; omega), List.drop_drop, List.drop_drop, Nat.add_comm]
    by_cases hk : writer k = a
    · rw [h.output (a := a') (by rw [hk]; exact ha), List.append_nil, List.append_nil]
    · rw [h.output (a := a) hk, List.append_nil, List.append_nil]
  rw [fire, fire.eq_def net (net.fire m a' t'), Marking.mk.injEq]
  refine ⟨hqueue, ?_, ?_⟩
  · exact Function.update_comm ha _ _ _
  · rw [hheads, hheads', hvars, hvars']
    exact Function.update_comm ha _ _ _

/-- Firings of different actors do not get in each other's way. -/
theorem PointToPoint.diamond (h : net.PointToPoint reader writer) (hreg : net.Regular) (hstable : net.Stable depth depth) :
    Persistent.Diamond (net.firing depth) := by
  rintro m ⟨a, t⟩ ⟨a', t'⟩ m₁ m₂ hne hm₁ hm₂
  obtain ⟨hchoice, rfl⟩ := firing_eq_some.mp hm₁
  obtain ⟨hchoice', rfl⟩ := firing_eq_some.mp hm₂
  have ha : a ≠ a' := by
    rintro rfl
    rw [hchoice, Option.some.injEq] at hchoice'
    exact hne (by rw [hchoice'])
  refine ⟨net.fire (net.fire m a t) a' t', firing_eq_some.mpr ⟨hstable _ _ _ _ (h.grows ha) hchoice', rfl⟩, ?_⟩
  rw [h.fire_comm hreg ha (ready_of_choice hchoice) (ready_of_choice hchoice')]
  exact firing_eq_some.mpr ⟨hstable _ _ _ _ (h.grows ha.symm) hchoice, rfl⟩

end Network

end SysteMoC
