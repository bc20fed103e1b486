import SysteMoC.Network
import SysteMoC.Persistent

/-!
# The dataflow net behind a network

What a network does when firings are atomic: a channel is a list of tokens, and an actor
whose first enabled transition has its tokens and places takes and appends them at once.
-/

namespace SysteMoC

/-- What is there between firings; a channel has no queue before its first reset, and an
actor no state. -/
structure Marking (A K Q V D : Type) where
  queue : K → Option (List D)
  state : A → Option Q
  vars : A → V

inductive Move (A K T : Type) where
  | fire (a : A) (t : T)
  | resetChan (k : K)
  | resetNode (a : A)
deriving DecidableEq

namespace Move

variable {A K T : Type}

def fired : Move A K T → Option (A × T)
  | fire a t => some (a, t)
  | _ => none

end Move

def PortOutInfo.Feeds {K Z : Type} (info : PortOutInfo (List (K ⊕ Z))) (k : K) : Prop := ∃ s ∈ info.port, s = .inl k

instance {K Z : Type} [DecidableEq K] [DecidableEq Z] (info : PortOutInfo (List (K ⊕ Z))) : DecidablePred info.Feeds :=
  fun _ => inferInstanceAs (Decidable (∃ s ∈ _, _))

theorem PortOutInfo.feeds_iff {K Z : Type} {info : PortOutInfo (List (K ⊕ Z))} {k : K} : info.Feeds k ↔ .inl k ∈ info.port := by
  simp [Feeds]

namespace RuntimeFiringRule

variable {K Z S D : Type} [DecidableEq K] [DecidableEq Z]

def consumption (fr : RuntimeFiringRule K (List (K ⊕ Z)) S) (k : K) : Nat :=
  (onChan (fr.portInInfos.map fun info => (info.port, info.consumed)) k).sum

def production (fr : RuntimeFiringRule K (List (K ⊕ Z)) S) (k : K) : Nat :=
  ((fr.portOutInfos.filter fun info => decide (info.Feeds k)).map PortOutInfo.produced).sum

/-- A write to an output port, at one of its positions. -/
def place (j : Nat) (f : Nat → Option D) (w : Nat × Nat × D) : Nat → Option D :=
  if w.1 = j then Function.update f w.2.1 (some w.2.2) else f

def written (writes : List (Nat × Nat × D)) (j : Nat) : Nat → Option D := writes.foldl (place j) fun _ => none

/-- The tokens of the ports, from the one of the index on, that go to a channel. -/
def outputFrom (writes : List (Nat × Nat × D)) (k : K) : Nat → List (PortOutInfo (List (K ⊕ Z))) → List D
  | _, [] => []
  | j, info :: infos =>
    (if info.Feeds k then Pick.tabulate (written writes j) info.produced else []) ++ outputFrom writes k (j + 1) infos

def output (fr : RuntimeFiringRule K (List (K ⊕ Z)) S) (writes : List (Nat × Nat × D)) (k : K) : List D :=
  outputFrom writes k 0 fr.portOutInfos

/-- Every position that is committed has been written, and no other one. -/
structure Complete (fr : RuntimeFiringRule K (List (K ⊕ Z)) S) (writes : List (Nat × Nat × D)) : Prop where
  within : ∀ w ∈ writes, ∃ info, fr.portOutInfos[w.1]? = some info ∧ w.2.1 < info.produced
  written : ∀ j info, fr.portOutInfos[j]? = some info → ∀ i < info.produced, ∃ d, (j, i, d) ∈ writes

end RuntimeFiringRule

namespace Network

variable {A K Z Q T V D : Type} [DecidableEq K] [DecidableEq Z]

/-- Rules without reset ports whose patterns on a channel take no more together than one of
them asks for, each channel being written by one pattern, and actions that write what is
committed. -/
structure Regular (net : Network A K Z Q T V D) : Prop where
  isLeft : ∀ a t, ∀ info ∈ (net.rule a t).portOutInfos, ∀ s ∈ info.port, s.isLeft
  nodup : ∀ a t, ((net.rule a t).portOutInfos.flatMap PortOutInfo.port).Nodup
  consumed_le : ∀ a t k, (net.rule a t).consumption k = 0 ∨
    ∃ info ∈ (net.rule a t).portInInfos, info.port = k ∧ (net.rule a t).consumption k ≤ info.required
  produced_le : ∀ a t, ∀ info ∈ (net.rule a t).portOutInfos, info.produced ≤ info.required
  complete : ∀ a t v tokens, (net.rule a t).Complete (net.action a t v tokens).2

/-! ## Firings -/

def heads {S : Type} (m : Marking A K Q V D) (fr : RuntimeFiringRule K (List (K ⊕ Z)) S) : List (List (Option D)) :=
  fr.portInInfos.map fun info => (List.range info.required).map fun i => (m.queue info.port).bind (·[i]?)

def Ready {S : Type} (depth : K → Nat) (m : Marking A K Q V D) (fr : RuntimeFiringRule K (List (K ⊕ Z)) S) : Prop :=
  (∀ info ∈ fr.portInInfos, ∃ l ∈ m.queue info.port, info.required ≤ l.length) ∧
    ∀ info ∈ fr.portOutInfos, ∀ s ∈ info.port, ∀ k ∈ s.getLeft?, ∃ l ∈ m.queue k, l.length + info.required ≤ depth k

instance {S : Type} (depth : K → Nat) (m : Marking A K Q V D) (fr : RuntimeFiringRule K (List (K ⊕ Z)) S) :
    Decidable (Ready depth m fr) :=
  inferInstanceAs (Decidable (_ ∧ _))

def enabled (net : Network A K Z Q T V D) (depth : K → Nat) (m : Marking A K Q V D) (a : A) (t : T) : Bool :=
  decide (Ready depth m (net.rule a t)) && (net.rule a t).guard.value (m.vars a, heads m (net.rule a t))

def choice (net : Network A K Z Q T V D) (depth : K → Nat) (m : Marking A K Q V D) (a : A) : Option T :=
  (m.state a).bind fun q => (net.transitions a q).find? (net.enabled depth m a)

section
variable [DecidableEq A]

def fire (net : Network A K Z Q T V D) (m : Marking A K Q V D) (a : A) (t : T) : Marking A K Q V D where
  queue k := (m.queue k).map fun l => l.drop ((net.rule a t).consumption k) ++
    (net.rule a t).output (net.action a t (m.vars a) (heads m (net.rule a t))).2 k
  state := Function.update m.state a (some (net.destState a t))
  vars := Function.update m.vars a (net.action a t (m.vars a) (heads m (net.rule a t))).1

def firing [DecidableEq T] (net : Network A K Z Q T V D) (depth : K → Nat) (m : Marking A K Q V D) (f : A × T) :
    Option (Marking A K Q V D) :=
  if net.choice depth m f.1 = some f.2 then some (net.fire m f.1 f.2) else none

/-- A move of the net; `initial` are the tokens a channel is reset to. -/
def move [DecidableEq T] (net : Network A K Z Q T V D) (depth : K → Nat) (initial : K → List D) (m : Marking A K Q V D) :
    Move A K T → Option (Marking A K Q V D)
  | .fire a t => net.firing depth m (a, t)
  | .resetChan k => some { m with queue := Function.update m.queue k (some (initial k)) }
  | .resetNode a => some { m with
      state := Function.update m.state a (some (net.initialState a))
      vars := Function.update m.vars a (net.reset a (m.vars a)) }

end

end Network

/-! ## Token counts -/

section
variable {K Z S D : Type} [DecidableEq K] [DecidableEq Z] {fr : RuntimeFiringRule K (List (K ⊕ Z)) S}
  {writes : List (Nat × Nat × D)}

namespace RuntimeFiringRule

omit [DecidableEq K] [DecidableEq Z] in
theorem written_isSome {j i : Nat} : ∀ {writes : List (Nat × Nat × D)} {f : Nat → Option D},
    ((f i).isSome ∨ ∃ d, (j, i, d) ∈ writes) → (writes.foldl (place j) f i).isSome := by
  intro writes
  induction writes with
  | nil =>
    intro f h
    exact h.resolve_right (by rintro ⟨_, ⟨⟩⟩)
  | cons w writes ih =>
    intro f h
    refine ih ?_
    by_cases hw : w.1 = j ∧ w.2.1 = i
    · left
      rw [place, if_pos hw.1, hw.2, Function.update_self]
      rfl
    · rcases h with h | ⟨d, h⟩
      · left
        rw [place]
        split
        · rename_i hj
          rw [Function.update_of_ne fun hi => hw ⟨hj, hi.symm⟩]
          exact h
        · exact h
      · rcases List.mem_cons.mp h with rfl | h
        · exact absurd ⟨rfl, rfl⟩ hw
        · exact .inr ⟨d, h⟩

theorem length_output (h : fr.Complete writes) (k : K) : (fr.output writes k).length = fr.production k := by
  have hfrom : ∀ (infos : List (PortOutInfo (List (K ⊕ Z)))) (j : Nat),
      (∀ n info, infos[n]? = some info → ∀ i < info.produced, (written writes (j + n) i).isSome) →
      (outputFrom writes k j infos).length =
        ((infos.filter fun info => decide (info.Feeds k)).map PortOutInfo.produced).sum := by
    intro infos
    induction infos with
    | nil => exact fun _ _ => rfl
    | cons info infos ih =>
      intro j hall
      have hrest := ih (j + 1) fun n info' hn => by
        rw [Nat.add_right_comm, Nat.add_assoc]
        exact hall (n + 1) info' hn
      have hfirst : ∀ i < info.produced, (written writes j i).isSome := hall 0 info rfl
      rw [outputFrom, List.length_append, hrest, List.filter_cons]
      by_cases hk : info.Feeds k
      · rw [if_pos hk, Pick.length_tabulate hfirst]
        simp [hk]
      · simp [hk]
  exact hfrom _ 0 fun n info hn i hi => by
    rw [Nat.zero_add]
    exact written_isSome (.inr (h.written n info hn i hi))

theorem production_cases {infos : List (PortOutInfo (List (K ⊕ Z)))} (h : (infos.flatMap PortOutInfo.port).Nodup) {k : K} :
    ((infos.filter fun info => decide (info.Feeds k)).map PortOutInfo.produced).sum = 0 ∨
      ∃ info ∈ infos, info.Feeds k ∧
        ((infos.filter fun info => decide (info.Feeds k)).map PortOutInfo.produced).sum = info.produced := by
  induction infos with
  | nil => exact .inl rfl
  | cons info infos ih =>
    rw [List.flatMap_cons, List.nodup_append] at h
    rw [List.filter_cons]
    by_cases hk : info.Feeds k
    · right
      refine ⟨info, List.mem_cons_self, hk, ?_⟩
      have hnone : infos.filter (fun info => decide (info.Feeds k)) = [] := by
        refine List.filter_eq_nil_iff.mpr fun info' hinfo' hk' => ?_
        rw [decide_eq_true_eq, PortOutInfo.feeds_iff] at hk'
        exact h.2.2 _ (PortOutInfo.feeds_iff.mp hk) _ (List.mem_flatMap.mpr ⟨info', hinfo', hk'⟩) rfl
      simp [hk, hnone]
    · rw [if_neg (by simpa using hk)]
      rcases ih h.2.1 with hzero | ⟨info', hinfo', hk', heq⟩
      · exact .inl hzero
      · exact .inr ⟨info', List.mem_cons_of_mem _ hinfo', hk', heq⟩

end RuntimeFiringRule

end

namespace Network

variable {A K Z Q T V D : Type} [DecidableEq K] [DecidableEq Z] {net : Network A K Z Q T V D} {depth : K → Nat}
  {m m' : Marking A K Q V D} {a : A} {t : T} {k : K} {l : List D}

omit [DecidableEq K] [DecidableEq Z] in
theorem choice_eq_some (h : net.choice depth m a = some t) :
    ∃ q, m.state a = some q ∧ t ∈ net.transitions a q ∧ net.enabled depth m a t = true := by
  obtain ⟨q, hq, h⟩ := Option.bind_eq_some_iff.mp h
  exact ⟨q, hq, List.mem_of_find?_eq_some h, List.find?_some h⟩

omit [DecidableEq K] [DecidableEq Z] in
theorem ready_of_choice (h : net.choice depth m a = some t) : Ready depth m (net.rule a t) := by
  obtain ⟨_, _, _, henabled⟩ := choice_eq_some h
  exact of_decide_eq_true (Bool.and_eq_true_iff.mp henabled).1

omit [DecidableEq K] [DecidableEq Z] in
theorem Ready.place {S : Type} {fr : RuntimeFiringRule K (List (K ⊕ Z)) S} (h : Ready depth m fr)
    {info : PortOutInfo (List (K ⊕ Z))} (hinfo : info ∈ fr.portOutInfos) (hk : info.Feeds k) :
    ∃ l, m.queue k = some l ∧ l.length + info.required ≤ depth k :=
  h.2 info hinfo (.inl k) (PortOutInfo.feeds_iff.mp hk) k rfl

omit [DecidableEq Z] in
theorem Ready.consumption_le (hreg : net.Regular) (h : Ready depth m (net.rule a t)) (hl : m.queue k = some l) :
    (net.rule a t).consumption k ≤ l.length := by
  rcases hreg.consumed_le a t k with hzero | ⟨info, hinfo, rfl, hle⟩
  · rw [hzero]
    exact Nat.zero_le _
  · obtain ⟨l', hl', hlen⟩ := h.1 info hinfo
    rw [hl] at hl'
    cases hl'
    exact hle.trans hlen

theorem Ready.production_le (hreg : net.Regular) (h : Ready depth m (net.rule a t)) (hl : m.queue k = some l)
    (hfits : l.length ≤ depth k) : l.length + (net.rule a t).production k ≤ depth k := by
  rcases RuntimeFiringRule.production_cases (k := k) (hreg.nodup a t) with hzero | ⟨info, hinfo, hk, heq⟩
  · rw [RuntimeFiringRule.production, hzero]
    exact hfits
  · obtain ⟨l', hl', hlen⟩ := h.place hinfo hk
    rw [hl] at hl'
    cases hl'
    have := hreg.produced_le a t info hinfo
    rw [RuntimeFiringRule.production, heq]
    omega

variable [DecidableEq A] [DecidableEq T] {initial : K → List D} {mv : Move A K T} {w : List (Move A K T)}

omit [DecidableEq T] in
theorem queue_fire : (net.fire m a t).queue k = (m.queue k).map fun l => l.drop ((net.rule a t).consumption k) ++
    (net.rule a t).output (net.action a t (m.vars a) (heads m (net.rule a t))).2 k := rfl

theorem firing_eq_some : net.firing depth m (a, t) = some m' ↔ net.choice depth m a = some t ∧ net.fire m a t = m' :=
  Option.ite_none_right_eq_some.trans (and_congr_right' Option.some_inj)

omit [DecidableEq T] in
theorem length_fire (hreg : net.Regular) (h : Ready depth m (net.rule a t)) (hl : m.queue k = some l) :
    ∃ l', (net.fire m a t).queue k = some l' ∧
      l'.length + (net.rule a t).consumption k = l.length + (net.rule a t).production k := by
  refine ⟨_, Option.map_eq_some_iff.mpr ⟨l, hl, rfl⟩, ?_⟩
  have hle := h.consumption_le hreg hl
  rw [List.length_append, List.length_drop, RuntimeFiringRule.length_output (hreg.complete a t _ _)]
  omega

def taken (net : Network A K Z Q T V D) (w : List (Move A K T)) (k : K) : Nat :=
  ((w.filterMap Move.fired).map fun f => (net.rule f.1 f.2).consumption k).sum

def appended (net : Network A K Z Q T V D) (w : List (Move A K T)) (k : K) : Nat :=
  ((w.filterMap Move.fired).map fun f => (net.rule f.1 f.2).production k).sum

/-- No token appears from nowhere or gets lost. -/
theorem length_exec (hreg : net.Regular) (hw : Persistent.exec (net.move depth initial) w m = some m')
    (hk : .resetChan k ∉ w) (hl : m.queue k = some l) :
    ∃ l', m'.queue k = some l' ∧ l'.length + net.taken w k = l.length + net.appended w k := by
  induction w generalizing m l with
  | nil =>
    cases hw
    exact ⟨l, hl, rfl⟩
  | cons mv w ih =>
    rw [List.mem_cons, not_or] at hk
    rw [Persistent.exec_cons] at hw
    obtain ⟨m₁, hmv, hw⟩ := Option.bind_eq_some_iff.mp hw
    cases mv with
    | fire a t =>
      obtain ⟨hchoice, rfl⟩ := firing_eq_some.mp hmv
      obtain ⟨l₁, hl₁, hlen⟩ := length_fire hreg (ready_of_choice hchoice) hl
      obtain ⟨l', hl', hsum⟩ := ih hw hk.2 hl₁
      refine ⟨l', hl', ?_⟩
      simp only [taken, appended, List.filterMap_cons, Move.fired, List.map_cons, List.sum_cons] at hsum ⊢
      omega
    | resetChan k' =>
      cases hmv
      have hne : k ≠ k' := fun h => hk.1 (by rw [h])
      exact ih hw hk.2 ((Function.update_of_ne hne _ _).trans hl)
    | resetNode a =>
      cases hmv
      exact ih hw hk.2 hl

/-- No channel gets more tokens than it has places. -/
theorem length_le_exec (hreg : net.Regular) (hinit : ∀ k, (initial k).length ≤ depth k)
    (hw : Persistent.exec (net.move depth initial) w m = some m') (h : ∀ k, ∀ l ∈ m.queue k, l.length ≤ depth k) :
    ∀ k, ∀ l ∈ m'.queue k, l.length ≤ depth k := by
  induction w generalizing m with
  | nil =>
    cases hw
    exact h
  | cons mv w ih =>
    rw [Persistent.exec_cons] at hw
    obtain ⟨m₁, hmv, hw⟩ := Option.bind_eq_some_iff.mp hw
    refine ih hw fun k l₁ hl₁ => ?_
    cases mv with
    | fire a t =>
      obtain ⟨hchoice, rfl⟩ := firing_eq_some.mp hmv
      have hready := ready_of_choice hchoice
      obtain ⟨l, hl, _⟩ := Option.map_eq_some_iff.mp hl₁
      obtain ⟨l', hl', hlen⟩ := length_fire hreg hready hl
      cases hl₁.symm.trans hl'
      have := hready.production_le hreg hl (h k l hl)
      omega
    | resetChan k' =>
      cases hmv
      by_cases hk : k = k'
      · subst hk
        simp only [Function.update_self, Option.mem_def, Option.some.injEq] at hl₁
        rw [← hl₁]
        exact hinit k
      · exact h k l₁ ((Function.update_of_ne hk _ _).symm.trans hl₁)
    | resetNode a =>
      cases hmv
      exact h k l₁ hl₁

end Network

/-! ## What the events of a rule stand for -/

namespace Marking

variable {A K Z Q V D : Type}

/-- The tokens or places that an event stands for are there. -/
def Offers (depth : K → Nat) (m : Marking A K Q V D) : NetEvent K Z → Prop
  | .chan k (.data n) => ∃ l ∈ m.queue k, n ≤ l.length
  | .chan k (.space n) => ∃ l ∈ m.queue k, l.length + n ≤ depth k
  | .sae _ => True

end Marking

namespace Network

variable {A K Z Q V D : Type} [DecidableEq K] [DecidableEq Z] {depth : K → Nat} {m : Marking A K Q V D}

theorem ready_iff {S : Type} {fr : RuntimeFiringRule K (List (K ⊕ Z)) S} :
    Ready depth m fr ↔ ∀ e ∈ fr.ioPatternWaiter, m.Offers depth e := by
  constructor
  · intro h e he
    rcases List.mem_append.mp (List.mem_toFinset.mp he) with he | he
    · obtain ⟨info, hinfo, rfl⟩ := List.mem_map.mp he
      exact h.1 info hinfo
    · obtain ⟨info, hinfo, he⟩ := List.mem_flatMap.mp he
      obtain ⟨s, hs, rfl⟩ := List.mem_map.mp he
      cases s with
      | inl k => exact h.2 info hinfo (.inl k) hs k rfl
      | inr z => trivial
  · intro h
    refine ⟨fun info hinfo => ?_, fun info hinfo s hs k hk => ?_⟩
    · exact h (.chan info.port (.data info.required))
        (List.mem_toFinset.mpr (List.mem_append_left _ (List.mem_map.mpr ⟨info, hinfo, rfl⟩)))
    · obtain rfl := Sum.getLeft?_eq_some_iff.mp hk
      refine h (.chan k (.space info.required)) (List.mem_toFinset.mpr (List.mem_append_right _ ?_))
      exact List.mem_flatMap.mpr ⟨info, hinfo, List.mem_map.mpr ⟨.inl k, hs, rfl⟩⟩

end Network

end SysteMoC
