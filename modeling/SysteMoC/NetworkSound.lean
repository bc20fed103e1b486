import SysteMoC.Availability
import SysteMoC.NetworkSteps

/-!
# What holds along the runs of a network

While all operations are within the counts, active events are covered by the counts once
the calls that are left are made, and every actor that is told of events has the first
enabled transition or hears of it.
-/

namespace SysteMoC

open CachedChoice (Call Awake Signalled Coherent Made)

/-! ## Channels while calls are left -/

namespace NetState

variable {A K Z Q T V D : Type} [DecidableEq K] [DecidableEq Z] {s s' : NetState A K Z Q T V D} {chans : K → FifoChan D Bool}
  {k : K} {c : NetEvent K Z × Call}

def settled (s : NetState A K Z Q T V D) : K → FifoChan D Bool := s.calls.foldl callChans s.chans

omit [DecidableEq Z] in
theorem settled_of_nil (h : s.calls = []) : s.settled = s.chans := by
  rw [settled, h]
  rfl

omit [DecidableEq Z] in
theorem foldl_callChans {cs : List (EventRequest × Call)} : ∀ {chans : K → FifoChan D Bool},
    (cs.map fun c => ((NetEvent.chan k c.1 : NetEvent K Z), c.2)).foldl callChans chans =
      Function.update chans k (cs.foldl FifoChan.call (chans k)) := by
  induction cs with
  | nil =>
    intro chans
    exact (Function.update_eq_self k chans).symm
  | cons c cs ih =>
    intro chans
    rw [List.map_cons, List.foldl_cons, ih, List.foldl_cons]
    simp only [callChans, Function.update_self, Function.update_idem]

end NetState

theorem EventMapManager.made_call {em : EventMapManager Bool} {c : Nat × Call} : Made c em.isActiveAt (em.call c).isActiveAt := by
  obtain ⟨n, c⟩ := c
  refine ⟨fun m hm => isActiveAt_call_of_ne hm, ?_, ?_, ?_⟩
  · rintro rfl ha
    exact isActiveAt_notify ha
  · rintro rfl
    exact isActiveAt_reset
  · rintro rfl
    exact isActiveAt_renotify

theorem FifoChan.made_call {D : Type} {ch : FifoChan D Bool} {c : EventRequest × Call} :
    Made c ch.isActiveAt (ch.call c).isActiveAt := by
  obtain ⟨e, c⟩ := c
  cases e with
  | data n =>
    have h := ch.emmData.made_call (c := (n, c))
    refine ⟨fun e he => ?_, h.notified, h.reset, h.renotified⟩
    cases e with
    | data m => exact h.others m fun heq => he (by rw [heq])
    | space m => rfl
  | space n =>
    have h := ch.emmSpace.made_call (c := (n, c))
    refine ⟨fun e he => ?_, h.notified, h.reset, h.renotified⟩
    cases e with
    | data m => rfl
    | space m => exact h.others m fun heq => he (by rw [heq])

namespace NetState

variable {A K Z Q T V D : Type} [DecidableEq K] [DecidableEq Z] {s s' : NetState A K Z Q T V D} {k : K}
  {c : NetEvent K Z × Call}

theorem made_perform : Made c s.isActive (s.perform c).isActive := by
  obtain ⟨e, c⟩ := c
  cases e with
  | chan k e =>
    have h := (s.chans k).made_call (c := (e, c))
    have hself : ∀ e', (s.perform (.chan k e, c)).isActive (.chan k e') = ((s.chans k).call (e, c)).isActiveAt e' := by
      intro e'
      simp only [perform, callChans, isActive, Function.update_self]
    refine ⟨fun e' he => ?_, fun hc ha => (hself e).trans (h.notified hc ha), fun hc => (hself e).trans (h.reset hc),
      fun hc => (hself e).trans (h.renotified hc)⟩
    cases e' with
    | sae z => rfl
    | chan k' e' =>
      by_cases hk : k' = k
      · subst hk
        rw [hself]
        exact h.others e' fun heq => he (by rw [heq])
      · simp only [perform, callChans, isActive, Function.update_of_ne hk]
  | sae z =>
    have hself : (s.perform (.sae z, c)).isActive (.sae z) = EventMapManager.run c (s.sae z) := by
      simp only [perform, callSae, isActive, Function.update_self]
    refine ⟨fun e' he => ?_, ?_, ?_, ?_⟩
    · cases e' with
      | chan k e' => rfl
      | sae z' =>
        have hz : z' ≠ z := fun heq => he (by rw [heq])
        simp only [perform, callSae, isActive, Function.update_of_ne hz]
    · rintro rfl _
      exact hself
    · rintro rfl
      exact hself
    · rintro rfl
      exact hself

end NetState

/-! ## The invariant -/

def Control.Executes {A K Z T D : Type} (a : A) : Control A K Z T D → Prop
  | .acting a' _ => a' = a
  | .executing a' _ _ => a' = a
  | _ => False

namespace Network

variable {A K Z Q T V D : Type} [DecidableEq K] [DecidableEq Z] {net : Network A K Z Q T V D} {b : Build}
  {s s' : NetState A K Z Q T V D} {a : A} {q : Q} {t : T}

/-- What a firing does to channels: it drops no tokens and takes them from FIFOs it reads. -/
def Proper (net : Network A K Z Q T V D) (a : A) : Task A K Z D → Prop
  | .op k o => o.Kept ∧ ∀ n, o = .outletStart n → net.kind k = .fifo → a = net.reader k
  | _ => True

structure Inv (net : Network A K Z Q T V D) (b : Build) (s : NetState A K Z Q T V D) : Prop where
  sound : ∀ k, ∃ c v p, FifoChan.Sound (s.settled k) c v p
  idle : ∀ a, (s.nodes a).Idle (net.fsm a)
  executing : ∀ a, (s.nodes a).executing = true ↔ s.control.Executes a
  signals : ∀ a, s.signals a ⊆ (s.nodes a).listening
  coherent : ∀ a q, (s.nodes a).executing = false → (s.nodes a).callbackDriven = true → (s.nodes a).currentState = some q →
    Coherent (net.options b s a q) s.isActive s.calls (s.signals a) (s.nodes a).ct
  todo : ∀ a t todo, s.control = .executing a t todo → ∀ task ∈ todo, net.Proper a task

omit [DecidableEq K] [DecidableEq Z] in
theorem isActive_congr (hc : s'.chans = s.chans) (hs : s'.sae = s.sae) : s'.isActive = s.isActive := by
  funext e
  cases e with
  | chan k e => simp only [NetState.isActive, hc]
  | sae z => simp only [NetState.isActive, hs]

theorem options_congr (hc : s'.chans = s.chans) (hv : s'.vars a = s.vars a) : net.options b s' a q = net.options b s a q := by
  simp only [options, NetState.tokens, hc, hv]

theorem Inv.update [DecidableEq A] (h : Inv net b s) (a : A) (hc : s'.chans = s.chans) (hs : s'.sae = s.sae)
    (hcalls : s'.calls = s.calls) (hvars : ∀ a' ≠ a, s'.vars a' = s.vars a') (hnodes : ∀ a' ≠ a, s'.nodes a' = s.nodes a')
    (hsignals : ∀ a' ≠ a, s'.signals a' = s.signals a')
    (hcontrol : ∀ a' ≠ a, s'.control.Executes a' ↔ s.control.Executes a') (hidle : (s'.nodes a).Idle (net.fsm a))
    (hexec : (s'.nodes a).executing = true ↔ s'.control.Executes a) (hsig : s'.signals a ⊆ (s'.nodes a).listening)
    (hcoh : ∀ q, (s'.nodes a).executing = false → (s'.nodes a).callbackDriven = true → (s'.nodes a).currentState = some q →
      Coherent (net.options b s' a q) s'.isActive s'.calls (s'.signals a) (s'.nodes a).ct)
    (htodo : ∀ a t todo, s'.control = .executing a t todo → ∀ task ∈ todo, net.Proper a task) : Inv net b s' where
  sound := by
    intro k
    rw [NetState.settled, hc, hcalls]
    exact h.sound k
  idle a' := by
    by_cases ha : a' = a
    · exact ha ▸ hidle
    · rw [hnodes a' ha]
      exact h.idle a'
  executing a' := by
    by_cases ha : a' = a
    · exact ha ▸ hexec
    · rw [hnodes a' ha, hcontrol a' ha]
      exact h.executing a'
  signals a' := by
    by_cases ha : a' = a
    · exact ha ▸ hsig
    · rw [hsignals a' ha, hnodes a' ha]
      exact h.signals a'
  coherent a' q := by
    by_cases ha : a' = a
    · exact ha ▸ hcoh q
    · rw [hnodes a' ha, hsignals a' ha, hcalls, isActive_congr hc hs, options_congr hc (hvars a' ha)]
      exact h.coherent a' q
  todo := htodo

theorem Inv.ct_eq (h : Inv net b s) (hs : s.Settled) (hx : (s.nodes a).executing = false)
    (hd : (s.nodes a).callbackDriven = true) (hq : (s.nodes a).currentState = some q) :
    (s.nodes a).ct = (net.transitions a q).find? (net.check b s a) := by
  have hcoh := h.coherent a q hx hd hq
  rw [hs.1, hs.2 a] at hcoh
  exact hcoh.settled

theorem coherent_find {calls : List (NetEvent K Z × Call)} {signals : Finset (Finset (NetEvent K Z))} {ct : Option T}
    (hct : ct = (net.transitions a q).find? (net.check b s a)) : Coherent (net.options b s a q) s.isActive calls signals ct := by
  rw [hct]
  exact CachedChoice.coherent_searched

end Network

namespace Network

variable {A K Z Q T V D : Type} [DecidableEq A] [DecidableEq K] [DecidableEq Z] [DecidableEq Q] {net : Network A K Z Q T V D}
  {b : Build} {s s' : Simulation A K Z Q T V D} {a : A} {q : Q} {t : T} {e : Finset (NetEvent K Z)}

/-! ## Steps of one actor -/

omit [DecidableEq Q] in
theorem Inv.deliver (h : Inv net b s.toNetState) (hs : net.deliver b a e s = some s') : Inv net b s'.toNetState := by
  obtain ⟨n, sent, hd, rfl⟩ := deliver_cases (h.idle a) hs
  simp only [Simulation.notifyActivation_toNetState, Simulation.setNode_toNetState, logSearch_toNetState]
  refine h.update a rfl rfl rfl (fun _ _ => rfl) (fun a' ha => Function.update_of_ne ha _ _)
    (fun a' ha => Function.update_of_ne ha _ _) (fun _ _ => Iff.rfl) ?_ ?_ ?_ ?_ h.todo
  all_goals simp only [Function.update_self]
  · cases hd with
    | executing | ignored => exact h.idle a
    | activated | deactivated => exact (h.idle a).searched
  · cases hd with
    | executing | ignored => exact h.executing a
    | activated | deactivated => exact h.executing a
  · have hsub := (Finset.erase_subset e _).trans (h.signals a)
    cases hd with
    | executing | ignored => exact hsub
    | activated | deactivated => exact hsub
  · intro q hx hdriven hq
    cases hd with
    | executing hx' =>
      rw [hx'] at hx
      cases hx
    | activated | deactivated =>
      refine coherent_find (NodeBase.searchActiveTransition_ct.trans ?_)
      rw [show (s.nodes a).currentState = some q from hq]
      rfl
    | ignored _ ha hct =>
      have hcoh := h.coherent a q hx hdriven hq
      rw [hct] at hcoh ⊢
      exact hcoh.skipped (of_decide_eq_false ha)

omit [DecidableEq Q] in
theorem Inv.alone {s : NetState A K Z Q T V D} (h : Inv net b s) (hs : s.Settled) (a : A)
    {n : NodeBase Q T (Finset (NetEvent K Z))} {v : V} {control : Control A K Z T D} (hidle : n.Idle (net.fsm a))
    (hexec : n.executing = true ↔ control.Executes a) (hcontrol : ∀ a' ≠ a, control.Executes a' ↔ s.control.Executes a')
    (hct : ∀ q, n.executing = false → n.callbackDriven = true → n.currentState = some q →
      n.ct = (net.transitions a q).find? (net.check b { s with vars := Function.update s.vars a v } a))
    (htodo : ∀ a t todo, control = .executing a t todo → ∀ task ∈ todo, net.Proper a task) :
    Inv net b { s with nodes := Function.update s.nodes a n, vars := Function.update s.vars a v, control } := by
  refine h.update a rfl rfl rfl (fun a' ha => Function.update_of_ne ha _ _) (fun a' ha => Function.update_of_ne ha _ _)
    (fun _ _ => rfl) hcontrol ?_ ?_ ?_ ?_ htodo
  all_goals simp only [Function.update_self]
  · exact hidle
  · exact hexec
  · rw [hs.2 a]
    exact Finset.empty_subset _
  · intro q hx hdriven hq
    exact coherent_find (hct q hx hdriven hq)

omit [DecidableEq Q] in
theorem Inv.setNode {s : NetState A K Z Q T V D} (h : Inv net b s) (hs : s.Settled) (a : A)
    {n : NodeBase Q T (Finset (NetEvent K Z))} {control : Control A K Z T D} (hidle : n.Idle (net.fsm a))
    (hexec : n.executing = true ↔ control.Executes a) (hcontrol : ∀ a' ≠ a, control.Executes a' ↔ s.control.Executes a')
    (hct : ∀ q, n.executing = false → n.callbackDriven = true → n.currentState = some q →
      n.ct = (net.transitions a q).find? (net.check b s a))
    (htodo : ∀ a t todo, control = .executing a t todo → ∀ task ∈ todo, net.Proper a task) :
    Inv net b { s with nodes := Function.update s.nodes a n, control } := by
  have hvars : Function.update s.vars a (s.vars a) = s.vars := Function.update_eq_self a s.vars
  have halone := h.alone (v := s.vars a) hs a hidle hexec hcontrol (by rw [hvars]; exact hct) htodo
  rw [hvars] at halone
  exact halone

omit [DecidableEq A] [DecidableEq Q] in
theorem Inv.setControl {s : NetState A K Z Q T V D} {control : Control A K Z T D} (h : Inv net b s)
    (hcontrol : ∀ a, control.Executes a ↔ s.control.Executes a)
    (htodo : ∀ a t todo, control = .executing a t todo → ∀ task ∈ todo, net.Proper a task) : Inv net b { s with control } where
  sound := h.sound
  idle := h.idle
  executing a := (h.executing a).trans (hcontrol a).symm
  signals := h.signals
  coherent := h.coherent
  todo := htodo

theorem Inv.resetNode (h : Inv net b s.toNetState) (hs : s.Settled) (a : A) : Inv net b (net.resetNode b a s).toNetState := by
  obtain ⟨n, sent, hreset, heq⟩ := resetNode_cases (h.idle a)
  rw [heq]
  simp only [Simulation.notifyActivation_toNetState, Simulation.setNode_toNetState, logSearch_toNetState]
  refine h.alone hs a hreset.idle ?_ (fun _ _ => Iff.rfl) ?_ h.todo
  · rw [hreset.executing]
    exact h.executing a
  · intro q _ hdriven hq
    rw [hreset.callbackDriven] at hdriven
    rw [hreset.currentState] at hq
    rw [hreset.ct, if_pos hdriven]
    cases hq
    rfl

omit [DecidableEq Q] in
theorem Inv.switch {n : NodeBase Q T (Finset (NetEvent K Z))} {sent : Option Bool} {on : Bool} (h : Inv net b s.toNetState)
    (hs : s.Settled) (hn : NodeBase.Switched (net.fsm a) (net.check b s.toNetState a) on (s.nodes a) n sent) :
    Inv net b { s.toNetState with nodes := Function.update s.nodes a n } := by
  refine h.setNode hs a hn.idle (by rw [hn.executing]; exact h.executing a) (fun _ _ => Iff.rfl) ?_ h.todo
  intro q hx hdriven hq
  rw [hn.executing] at hx
  rw [hn.currentState] at hq
  rw [hn.ct, hq, Option.isSome_some, Bool.true_and]
  split
  · rfl
  · rename_i hsame
    refine h.ct_eq hs hx ?_ hq
    rw [hn.callbackDriven] at hdriven
    cases hold : (s.nodes a).callbackDriven with
    | true => rfl
    | false => exact absurd (by rw [hold, hdriven]; rfl) hsame

omit [DecidableEq Q] in
theorem Inv.poll (h : Inv net b s.toNetState) (hs : s.Settled) (hc : s.control = .polling a) (hp : net.poll b a s = some s') :
    Inv net b s'.toNetState := by
  have hnot : ∀ a', ¬ s.control.Executes a' := by
    rw [hc]
    exact fun _ => id
  have hexec : (s.nodes a).executing = false := by
    rw [← Bool.not_eq_true, h.executing a]
    exact hnot a
  cases poll_cases hp with
  | inactive ha => exact h.setControl (fun a' => iff_of_false id (hnot a')) (by rintro _ _ _ ⟨⟩)
  | done ha hn hct =>
    obtain ⟨hi, hx, hsame⟩ := canFire_same (h.idle a) hn
    simp only [Simulation.setNode_toNetState, logPoll_toNetState]
    refine h.setNode hs a hi ?_ (fun a' _ => iff_of_false id (hnot a')) ?_ (by rintro _ _ _ ⟨⟩)
    · rw [hx, hexec]
      exact iff_of_false Bool.false_ne_true id
    · intro q _ hdriven hq
      have heq := hsame hdriven
      rw [heq] at hdriven hq ⊢
      exact h.ct_eq hs hexec hdriven hq
  | fire ha hn hct hassert =>
    rename_i n t
    obtain ⟨hi, hx, hsame⟩ := canFire_same (h.idle a) hn
    have hi : { n with executing := true }.Idle (net.fsm a) := ⟨hi.1, hi.2, hi.3⟩
    simp only [Simulation.setNode_toNetState, logFire_toNetState]
    refine h.setNode hs a hi (iff_of_true rfl rfl) (fun a' ha' => iff_of_false (fun h => ha' h.symm) (hnot a')) ?_
      (by rintro _ _ _ ⟨⟩)
    rintro _ ⟨⟩

omit [DecidableEq A] [DecidableEq K] [DecidableEq Z] [DecidableEq Q] in
theorem proper_tasks {writes : List (Nat × Nat × D)} : ∀ task ∈ (net.rule a t).tasks A writes, net.Proper a task := by
  intro task htask
  rw [RuntimeFiringRule.tasks, List.mem_append, List.mem_append] at htask
  rcases htask with (hwrite | hin) | hout
  · obtain ⟨w, _, hw⟩ := List.mem_filterMap.mp hwrite
    obtain ⟨info, _, hw⟩ := Option.bind_eq_some_iff.mp hw
    obtain ⟨sink, _, hw⟩ := Option.bind_eq_some_iff.mp hw
    obtain ⟨k, _, hw⟩ := Option.bind_eq_some_iff.mp hw
    cases hw
    exact ⟨trivial, by rintro _ ⟨⟩⟩
  · obtain ⟨info, hinfo, hin⟩ := List.mem_flatMap.mp hin
    rcases List.mem_pair.mp hin with rfl | rfl
    · exact ⟨trivial, fun _ _ hk => net.reader_eq a t info hinfo hk⟩
    · exact ⟨trivial, by rintro _ ⟨⟩⟩
  · obtain ⟨info, _, hout⟩ := List.mem_flatMap.mp hout
    rw [RuntimeFiringRule.commExecOut, List.mem_append] at hout
    rcases hout with hcopy | hcommit
    · split at hcopy
      · obtain ⟨sink, _, hs⟩ := List.mem_filterMap.mp hcopy
        obtain ⟨k', _, rfl⟩ := Option.map_eq_some_iff.mp hs
        exact trivial
      · cases hcopy
    · obtain ⟨sink, _, hs⟩ := List.mem_flatMap.mp hcommit
      cases sink with
      | inl k =>
        rcases List.mem_pair.mp hs with rfl | rfl
        · exact ⟨trivial, by rintro _ ⟨⟩⟩
        · exact ⟨rfl, by rintro _ ⟨⟩⟩
      | inr z =>
        cases List.mem_singleton.mp hs
        exact trivial

omit [DecidableEq Q] in
theorem Inv.act (h : Inv net b s.toNetState) (hs : s.Settled) (hc : s.control = .acting a t) :
    Inv net b (net.act b a t s).toNetState := by
  have hx : (s.nodes a).executing = true := by
    rw [h.executing a, hc]
    rfl
  obtain ⟨v, writes, haction⟩ : ∃ v writes, net.action a t (s.vars a) (s.tokens b (net.rule a t)) = (v, writes) := ⟨_, _, rfl⟩
  have halone : Inv net b { s.toNetState with
      nodes := Function.update s.nodes a (s.nodes a)
      vars := Function.update s.vars a v
      control := .executing a t ((net.rule a t).tasks A writes) } := by
    refine h.alone hs a (h.idle a) (iff_of_true hx rfl) (fun a' _ => by rw [hc]; exact Iff.rfl) ?_ ?_
    · intro q hx'
      rw [hx] at hx'
      cases hx'
    · rintro _ _ _ ⟨⟩
      exact proper_tasks
  rw [Function.update_eq_self] at halone
  simp only [Network.act, haction]
  exact halone

theorem Inv.finish (h : Inv net b s.toNetState) (hs : s.Settled) (hc : s.control = .executing a t []) :
    Inv net b (net.finish b a t s).toNetState := by
  have hsched := (h.idle a).scheduleReturn (net.check b s.toNetState a) t
  have heq : (net.finish b a t s).toNetState = { s.toNetState with
      nodes := Function.update s.nodes a ((s.nodes a).scheduleReturn (net.fsm a) (net.check b s.toNetState a) t)
      control := .polling a } := by
    simp only [Network.finish, Simulation.setNode_toNetState, logSearch_toNetState]
  rw [heq]
  refine h.setNode hs a hsched.idle ?_ ?_ ?_ (by rintro _ _ _ ⟨⟩)
  · rw [hsched.executing]
    exact iff_of_false Bool.false_ne_true id
  · intro a' ha
    rw [hc]
    exact iff_of_false id fun h => ha h.symm
  · intro q _ hdriven hq
    rw [hsched.currentState] at hq
    rw [hsched.callbackDriven, NodeBase.callbackDriven, Bool.and_eq_true] at hdriven
    rw [hsched.ct, if_pos hdriven.2]
    cases hq
    rfl

/-! ## Channel operations and calls -/

omit [DecidableEq A] [DecidableEq K] [DecidableEq Z] [DecidableEq Q] in
theorem tokens_congr {S : Type} {s s' : NetState A K Z Q T V D} {fr : RuntimeFiringRule K (List (K ⊕ Z)) S}
    (h : ∀ info ∈ fr.portInInfos, ∀ i < info.required, FifoOutlet.read b (s'.chans info.port) info.required i =
      FifoOutlet.read b (s.chans info.port) info.required i) : s'.tokens b fr = s.tokens b fr :=
  List.map_congr_left fun info hinfo => List.map_congr_left fun i hi => h info hinfo i (List.mem_range.mp hi)

omit [DecidableEq A] [DecidableEq Q] in
@[simp] theorem tokens_perform {S : Type} {s : NetState A K Z Q T V D} {c : NetEvent K Z × Call}
    {fr : RuntimeFiringRule K (List (K ⊕ Z)) S} : (s.perform c).tokens b fr = s.tokens b fr := by
  refine tokens_congr fun info _ i _ => ?_
  have hsame : (NetState.callChans s.chans c info.port).withEventsOf (s.chans info.port) = s.chans info.port :=
    withEventsOf_callChans
  have hread := congrArg (fun ch => FifoOutlet.read b ch info.required i) hsame
  exact hread

omit [DecidableEq A] [DecidableEq Q] in
theorem Inv.nextCall (h : Inv net b s.toNetState) (hs : ∀ a, s.signals a = ∅) (hn : nextCall s = some s') :
    Inv net b s'.toNetState := by
  unfold Network.nextCall at hn
  split at hn
  · cases hn
  · rename_i c calls hcalls
    cases hn
    exact {
      sound := by
        intro k
        have hk := h.sound k
        rw [NetState.settled, hcalls] at hk
        exact hk
      idle := h.idle
      executing := h.executing
      signals := fun a => Finset.filter_subset _ _
      coherent := by
        intro a q hx hdriven hq
        have hcoh := h.coherent a q hx hdriven hq
        rw [hcalls, hs a] at hcoh
        have hlisten : (s.nodes a).listening = (net.fsm a).am q :=
          (h.idle a).listening.trans (NodeBase.required_of hdriven hq)
        have hoptions : net.options b (s.perform c) a q = net.options b s.toNetState a q := by
          simp only [options, tokens_perform]
          rfl
        rw [← hoptions] at hcoh
        refine hcoh.called NetState.made_perform fun t ht hsig => Finset.mem_filter.mpr ⟨?_, hsig⟩
        rw [hlisten]
        exact List.mem_toFinset.mpr (List.mem_map_of_mem ht)
      todo := h.todo }

omit [DecidableEq A] [DecidableEq Q] in
theorem mem_waiter {info : PortInInfo K} (hinfo : info ∈ (net.rule a t).portInInfos) :
    .chan info.port (.data info.required) ∈ (net.rule a t).ioPatternWaiter :=
  List.mem_toFinset.mpr (List.mem_append_left _ (List.mem_map.mpr ⟨info, hinfo, rfl⟩))

omit [DecidableEq A] [DecidableEq Q] in
theorem mem_waiter_out {info : PortOutInfo (List (K ⊕ Z))} {k : K} (hinfo : info ∈ (net.rule a t).portOutInfos)
    (hk : .inl k ∈ info.port) : .chan k (.space info.required) ∈ (net.rule a t).ioPatternWaiter := by
  refine List.mem_toFinset.mpr (List.mem_append_right _ (List.mem_flatMap.mpr ⟨info, hinfo, ?_⟩))
  exact List.mem_map.mpr ⟨.inl k, hk, rfl⟩

omit [DecidableEq A] [DecidableEq Q] in
/-- The events of an awake rule are covered by the counts. -/
theorem Inv.available {s : NetState A K Z Q T V D} (h : Inv net b s) (hs : s.calls = [])
    (ha : Awake s.isActive (net.rule a t).ioPatternWaiter) {info : PortInInfo K} (hinfo : info ∈ (net.rule a t).portInInfos) :
    (s.chans info.port).isActiveAt (.data info.required) = true ∧
      ∃ c v p, FifoChan.Sound (s.chans info.port) c v p ∧ info.required ≤ v := by
  have hactive : (s.chans info.port).isActiveAt (.data info.required) = true := ha _ (mem_waiter hinfo)
  obtain ⟨c, v, p, hsound⟩ := h.sound info.port
  rw [NetState.settled_of_nil hs] at hsound
  have hle := hsound.visible_of_active hactive
  rw [hsound.areas.visibleCount_eq] at hle
  exact ⟨hactive, c, v, p, hsound, hle⟩

omit [DecidableEq A] [DecidableEq Q] in
theorem Inv.changed {s : NetState A K Z Q T V D} (h : Inv net b s) (hs : s.Settled) {chans : K → FifoChan D Bool}
    {calls : List (NetEvent K Z × Call)} (hsound : ∀ k, ∃ c v p, FifoChan.Sound (calls.foldl NetState.callChans chans k) c v p)
    (hactive : ∀ k, (chans k).isActiveAt = (s.chans k).isActiveAt)
    (htokens : ∀ a t, (s.nodes a).executing = false → Awake s.isActive (net.rule a t).ioPatternWaiter →
      { s with chans, calls }.tokens b (net.rule a t) ≠ s.tokens b (net.rule a t) →
        ∃ e ∈ (net.rule a t).ioPatternWaiter, (e, Call.renotify) ∈ calls ∨ (e, Call.reset) ∈ calls) :
    Inv net b { s with chans, calls } := by
  refine ⟨hsound, h.idle, h.executing, h.signals, fun a q hx hdriven hq => ?_, h.todo⟩
  have hact : NetState.isActive { s with chans, calls } = s.isActive := by
    funext e
    cases e with
    | chan k e => exact congrFun (hactive k) e
    | sae z => rfl
  have hcoh := h.coherent a q hx hdriven hq
  rw [hs.1, hs.2 a] at hcoh
  rw [hact]
  refine Coherent.changed hcoh.settled rfl rfl fun t _ ha hne => ?_
  refine htokens a t hx ha fun heq => hne ?_
  simp only [options, heq]

variable [Token D] {k : K} {o : FifoOp D}

omit [DecidableEq A] [DecidableEq Q] in
/-- An operation within the counts, by an actor that reads the channel where tokens are taken from a FIFO. -/
theorem Inv.chanOp {s s' : NetState A K Z Q T V D} (h : Inv net b s) (hs : s.Settled) (hkept : o.Kept) (hg : (s.chans k).Guarded o)
    (hread : ∀ n, o = .outletStart n → net.kind k = .fifo → (s.nodes (net.reader k)).executing = true)
    (ho : net.chanOp b k o s = some s') : Inv net b s' := by
  obtain ⟨ch, hch, rfl⟩ := chanOp_cases ho
  have hsettled : s.settled = s.chans := NetState.settled_of_nil hs.1
  refine h.changed hs (fun k' => ?_) (fun k' => ?_) fun a t hx ha hne => ?_
  · rw [NetState.foldl_callChans, Function.update_self, ChanKind.step_calls hch, Function.update_idem]
    by_cases hk : k' = k
    · subst hk
      obtain ⟨c, v, p, hsound⟩ := h.sound k'
      rw [hsettled] at hsound
      obtain ⟨c', v', p', _, hsound', _⟩ := ChanKind.sound_step hsound hkept hg hch
      rw [Function.update_self]
      exact ⟨c', v', p', hsound'⟩
    · rw [Function.update_of_ne hk, ← hsettled]
      exact h.sound k'
  · by_cases hk : k' = k
    · subst hk
      simp only [Function.update_self]
      funext e
      cases e with
      | data n => rfl
      | space n => rfl
    · simp only [Function.update_of_ne hk]
  · have hother : ∀ info ∈ (net.rule a t).portInInfos, info.port ≠ k → ∀ i, FifoOutlet.read b
        (Function.update s.chans k (ch.withEventsOf (s.chans k)) info.port) info.required i =
          FifoOutlet.read b (s.chans info.port) info.required i := by
      intro info _ hk i
      rw [Function.update_of_ne hk]
    -- tokens under an active event change by a reset or by another reader, and both call the event
    by_cases hop : o = .doReset ∨ net.kind k = .multireader ∧ ∃ n, o = .outletStart n
    · obtain ⟨info, hinfo, hk⟩ : ∃ info ∈ (net.rule a t).portInInfos, info.port = k := by
        by_contra hnone
        exact hne (tokens_congr fun info hinfo i _ => hother info hinfo (fun hk => hnone ⟨info, hinfo, hk⟩) i)
      subst hk
      refine ⟨_, mem_waiter hinfo, ?_⟩
      rcases ChanKind.covered hop (h.available hs.1 ha hinfo).1 with hcall | hcall
      · exact .inl (List.mem_map.mpr ⟨_, hcall, rfl⟩)
      · exact .inr (List.mem_map.mpr ⟨_, hcall, rfl⟩)
    · rw [not_or] at hop
      refine absurd (tokens_congr fun info hinfo i hi => ?_) hne
      by_cases hk : info.port = k
      · subst hk
        obtain ⟨_, c, v, p, hsound, hle⟩ := h.available hs.1 ha hinfo
        simp only [Function.update_self]
        refine ChanKind.read_step hsound.areas hkept (fun n hn => hop.2 ⟨?_, n, hn⟩) hop.1 hg hch (by omega)
        cases hkind : net.kind info.port with
        | multireader => rfl
        | fifo =>
          have hreads := hread n hn hkind
          rw [← net.reader_eq a t info hinfo hkind, hx] at hreads
          cases hreads
      · exact hother info hinfo hk i

omit [DecidableEq A] [DecidableEq Q] in
theorem Inv.fills {s : NetState A K Z Q T V D} {k' : K} {n : Nat} {head ch : FifoChan D Bool} (h : Inv net b s) (hs : s.Settled)
    (hn : n ≤ FifoEntry.numFree (s.chans k)) (hn' : n ≤ FifoEntry.numFree (s.chans k'))
    (hcopy : copyTokens b n 0 n (s.chans k) (s.chans k') = some (head, ch)) (k'' : K) :
    Function.update (Function.update s.chans k head) k' ch k'' = s.chans k'' ∨
      FifoChan.Fills n (s.chans k'') (Function.update (Function.update s.chans k head) k' ch k'') ∧
        n ≤ (s.chans k'').freeCount := by
  have hsettled : s.settled = s.chans := NetState.settled_of_nil hs.1
  obtain ⟨c, v, p, hsound⟩ := h.sound k
  obtain ⟨c', v', p', hsound'⟩ := h.sound k'
  rw [hsettled] at hsound hsound'
  obtain ⟨hhead, hch⟩ := FifoChan.copyTokens_fills hsound.areas hsound'.areas (by omega) hn hn' hcopy
  by_cases hk' : k'' = k'
  · subst hk'
    rw [Function.update_self]
    exact .inr ⟨hch, hn'⟩
  · rw [Function.update_of_ne hk']
    by_cases hk : k'' = k
    · subst hk
      rw [Function.update_self]
      exact .inr ⟨hhead, hn⟩
    · exact .inl (Function.update_of_ne hk _ _)

omit [DecidableEq A] [DecidableEq Q] in
theorem Inv.copied {s : NetState A K Z Q T V D} {k' : K} {n : Nat} {head ch : FifoChan D Bool} (h : Inv net b s) (hs : s.Settled)
    (hn : n ≤ FifoEntry.numFree (s.chans k)) (hn' : n ≤ FifoEntry.numFree (s.chans k'))
    (hcopy : copyTokens b n 0 n (s.chans k) (s.chans k') = some (head, ch)) :
    Inv net b { s with chans := Function.update (Function.update s.chans k head) k' ch } := by
  have hsettled : s.settled = s.chans := NetState.settled_of_nil hs.1
  have hfills := h.fills hs hn hn' hcopy
  refine h.changed hs (fun k'' => ?_) (fun k'' => ?_) fun a t _ ha hne => ?_
  · obtain ⟨c, v, p, hsound⟩ := h.sound k''
    rw [hsettled] at hsound
    rw [hs.1, List.foldl_nil]
    rcases hfills k'' with heq | ⟨hf, _⟩
    · rw [heq]
      exact ⟨c, v, p, hsound⟩
    · exact ⟨c, v, p, hf.sound hsound⟩
  · rcases hfills k'' with heq | ⟨hf, _⟩
    · rw [heq]
    · rw [hf.others]
      rfl
  · refine absurd (tokens_congr fun info hinfo i hi => ?_) hne
    obtain ⟨_, c, v, p, hsound, hle⟩ := h.available hs.1 ha hinfo
    rcases hfills info.port with heq | ⟨hf, hfree⟩
    · simp only [heq]
    · exact hf.read_eq hsound.areas hfree (by omega)

omit [DecidableEq A] [DecidableEq Q] [Token D] in
theorem Inv.notified {s : NetState A K Z Q T V D} {z : Z} (h : Inv net b s) (hs : s.Settled) :
    Inv net b { s with calls := [(.sae z, .notify)] } := by
  refine h.changed hs (fun k => ?_) (fun _ => rfl) fun _ _ _ _ hne => absurd rfl hne
  have hk := h.sound k
  rw [NetState.settled_of_nil hs.1] at hk
  exact hk

theorem Inv.doReset {r : (K ⊕ Z) ⊕ A} (h : Inv net b s.toNetState) (hs : s.Settled) (hr : net.doReset b r s = some s') :
    Inv net b s'.toNetState := by
  match r with
  | .inl (.inl k) =>
    obtain ⟨s₁, ho, heq⟩ := Option.bind_eq_some_iff.mp hr
    cases heq
    exact h.chanOp (o := .doReset) hs trivial trivial (by rintro _ ⟨⟩) ho
  | .inl (.inr z) =>
    cases hr
    exact h.notified hs
  | .inr a =>
    cases hr
    exact h.resetNode hs a

theorem Inv.doTask {task : Task A K Z D} {todo : List (Task A K Z D)} (h : Inv net b s.toNetState) (hs : s.Settled)
    (hc : s.control = .executing a t (task :: todo)) (hw : WithinCounts s.toNetState (.step : Label A K Z))
    (ht : net.doTask b a t task todo s = some s') : Inv net b s'.toNetState := by
  have hrest : Inv net b { s.toNetState with control := .executing a t todo } := by
    refine h.setControl (fun a' => by rw [hc]; exact Iff.rfl) ?_
    rintro _ _ _ ⟨⟩ task' hmem
    exact h.todo a t _ hc task' (List.mem_cons_of_mem _ hmem)
  have hproper : net.Proper a task := h.todo a t _ hc task List.mem_cons_self
  have hx : (s.nodes a).executing = true := by
    rw [h.executing a, hc]
    rfl
  unfold WithinCounts at hw
  rw [hc] at hw
  cases task with
  | op k o =>
    obtain ⟨s₁, ho, heq⟩ := Option.bind_eq_some_iff.mp ht
    cases heq
    refine hrest.chanOp hs hproper.1 hw (fun n hn hk => ?_) ho
    rw [← hproper.2 n hn hk]
    exact hx
  | copy k k' n =>
    obtain ⟨⟨head, ch⟩, hcopy, heq⟩ := Option.bind_eq_some_iff.mp ht
    cases heq
    exact hrest.copied hs hw.1 hw.2 hcopy
  | produce z n =>
    obtain ⟨_, _, heq⟩ := Option.bind_eq_some_iff.mp ht
    cases heq
    refine h.setControl (fun a' => by rw [hc]; exact Iff.rfl) ?_
    rintro _ _ _ ⟨⟩ task' hmem
    rcases List.mem_append.mp hmem with hreset | hmem
    · obtain ⟨_, _, rfl⟩ := List.mem_map.mp hreset
      exact trivial
    · exact h.todo a t _ hc task' (List.mem_cons_of_mem _ hmem)
  | reset r => exact Inv.doReset (s := { s with control := .executing a t todo }) hrest hs ht

variable [Fintype A]

theorem Inv.step {l : Label A K Z} (h : Inv net b s.toNetState) (hw : WithinCounts s.toNetState l) (hs : net.step b s l = some s') :
    Inv net b s'.toNetState := by
  cases l with
  | deliver a e => exact h.deliver (Option.ite_none_right_eq_some.mp hs).2
  | call =>
    obtain ⟨hnone, hs⟩ := Option.ite_none_right_eq_some.mp hs
    exact h.nextCall hnone hs
  | reset r =>
    obtain ⟨⟨hset, _⟩, hs⟩ := Option.ite_none_right_eq_some.mp hs
    exact h.doReset hset hs
  | setActive a flag =>
    obtain ⟨⟨hset, _⟩, hs⟩ := Option.ite_none_right_eq_some.mp hs
    obtain ⟨n, sent, hn, rfl⟩ := setActive_cases (h.idle a) hs
    simp only [Simulation.notifyActivation_toNetState, Simulation.setNode_toNetState, logSearch_toNetState]
    exact h.switch hset hn
  | setUseActivationCallback a flag =>
    obtain ⟨⟨hset, _⟩, hs⟩ := Option.ite_none_right_eq_some.mp hs
    obtain ⟨n, sent, hn, heq⟩ := setUseActivationCallback_cases (b := b) flag (h.idle a)
    cases hs
    simp only [heq, Simulation.notifyActivation_toNetState, Simulation.setNode_toNetState, logSearch_toNetState]
    exact h.switch hset hn
  | run a =>
    obtain ⟨⟨_, hidle, _⟩, hs⟩ := Option.ite_none_right_eq_some.mp hs
    cases hs
    refine h.setControl (fun a' => ?_) (by rintro _ _ _ ⟨⟩)
    cases hc : s.control with
    | idle => exact Iff.rfl
    | polling | acting | executing =>
      rw [hc] at hidle
      cases hidle
  | step =>
    obtain ⟨hset, hs⟩ := Option.ite_none_right_eq_some.mp hs
    unfold Network.proceed at hs
    split at hs
    · cases hs
    · rename_i hc
      exact h.poll hset hc hs
    · rename_i hc
      cases hs
      exact h.act hset hc
    · rename_i hc
      cases hs
      exact h.finish hset hc
    · rename_i hc
      exact h.doTask hset hc hw hs

/-! ## Runs -/

omit [DecidableEq A] [DecidableEq Q] [Fintype A] [Token D] in
theorem inv_start {chans : K → FifoChan D Bool} {vars : A → V} (h : net.Elaborated b chans) :
    Inv net b (start chans vars : Simulation A K Z Q T V D).toNetState where
  sound k := by
    obtain ⟨n, l, rs, hl, hreq, _⟩ := h k
    exact ⟨0, 0, 0, ChanKind.sound_requests hl hreq⟩
  idle a := ⟨rfl, rfl, rfl⟩
  executing a := iff_of_false Bool.false_ne_true id
  signals a := Finset.empty_subset _
  coherent := by rintro _ _ _ _ ⟨⟩
  todo := by rintro _ _ _ ⟨⟩

theorem inv_run (h : Inv net b s.toNetState)
    (hr : Relation.ReflTransGen (net.StepOf b fun s l => WithinCounts s.toNetState l) s s') : Inv net b s'.toNetState := by
  induction hr with
  | refl => exact h
  | tail _ hstep ih =>
    obtain ⟨l, hw, hs⟩ := hstep
    exact ih.step hw hs

theorem initialTokens_run (h : Inv net b s.toNetState)
    (hr : Relation.ReflTransGen (net.StepOf b fun s l => WithinCounts s.toNetState l) s s') (k : K) :
    (s'.chans k).initialTokens = (s.chans k).initialTokens := by
  induction hr with
  | refl => rfl
  | tail hr hstep ih =>
    obtain ⟨l, _, hs⟩ := hstep
    exact ((step_cases (inv_run h hr).idle hs).initialTokens k).trans ih

end Network

end SysteMoC
