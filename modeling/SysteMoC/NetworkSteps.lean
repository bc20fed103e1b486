import SysteMoC.Network
import SysteMoC.NodeIdle

/-!
# Steps of a network

What each step does to the nodes, the requests and the record of the run.
-/

namespace SysteMoC

open CachedChoice (Call Awake)

theorem Control.eq_idle {A K Z T D : Type} {c : Control A K Z T D} (h : c.isIdle = true) : c = .idle := by
  cases c with
  | idle => rfl
  | polling | acting | executing => cases h

/-- The actor whose loop is at its condition. -/
def Control.polls {A K Z T D : Type} : Control A K Z T D → Option A
  | .polling a => some a
  | _ => none

theorem Control.eq_polling {A K Z T D : Type} {c : Control A K Z T D} {a : A} (h : c.polls = some a) : c = .polling a := by
  cases c with
  | polling a' =>
    cases h
    rfl
  | idle | acting | executing => cases h

theorem copyTokens_initialTokens {T ε : Type} [Token T] {b : Build} {limit k : Nat} {head' ch' : FifoChan T ε} :
    ∀ {i : Nat} {head ch : FifoChan T ε}, copyTokens b limit i k head ch = some (head', ch') →
      head'.initialTokens = head.initialTokens ∧ ch'.initialTokens = ch.initialTokens := by
  induction k with
  | zero =>
    intro i head ch h
    cases h
    exact ⟨rfl, rfl⟩
  | succ k ih =>
    intro i head ch h
    obtain ⟨_, _, h⟩ := Option.bind_eq_some_iff.mp h
    obtain ⟨⟨t, st⟩, _, h⟩ := Option.bind_eq_some_iff.mp h
    obtain ⟨ch₁, hwrite, h⟩ := Option.bind_eq_some_iff.mp h
    obtain ⟨_, _, heq⟩ := Option.bind_eq_some_iff.mp hwrite
    cases heq
    obtain ⟨hhead, hch⟩ := ih h
    exact ⟨hhead, hch⟩

/-! ## What steps leave as it is -/

section
variable {A K Z Q T V D : Type} [DecidableEq A] {a : A} {n : NodeBase Q T (Finset (NetEvent K Z))} {sent : Option Bool}
  {s : Simulation A K Z Q T V D}

namespace Simulation

@[simp] theorem setNode_toNetState : (s.setNode a n).toNetState = { s.toNetState with nodes := Function.update s.nodes a n } := rfl

@[simp] theorem notifyActivation_toNetState : (s.notifyActivation a sent).toNetState = s.toNetState := by
  cases sent with
  | none => rfl
  | some activation => rfl

@[simp] theorem notifyActivation_request :
    (s.notifyActivation a sent).request = sent.elim s.request (Function.update s.request a) := by
  cases sent with
  | none => rfl
  | some activation => rfl

@[simp] theorem notifyActivation_flags :
    (s.notifyActivation a sent).flags = (sent.toList.map fun activation => (a, activation)) ++ s.flags := by
  cases sent with
  | none => rfl
  | some activation => rfl

@[simp] theorem notifyActivation_polled : (s.notifyActivation a sent).polled = s.polled := by
  cases sent with
  | none => rfl
  | some activation => rfl

@[simp] theorem notifyActivation_guards : (s.notifyActivation a sent).guards = s.guards := by
  cases sent with
  | none => rfl
  | some activation => rfl

end Simulation

namespace Network

variable [DecidableEq K] [DecidableEq Z] {net : Network A K Z Q T V D} {b : Build} {q : Option Q} {searches polled : Bool}

omit [DecidableEq A] in
@[simp] theorem logGuards_toNetState {tl : List T} : (net.logGuards a tl s).toNetState = s.toNetState := rfl

@[simp] theorem logSearch_toNetState : (net.logSearch b a q searches polled s).toNetState = s.toNetState := by
  unfold logSearch
  split
  · rfl
  · rfl

@[simp] theorem logSearch_request : (net.logSearch b a q searches polled s).request = s.request := by
  unfold logSearch
  split
  · rfl
  · rfl

@[simp] theorem logSearch_flags : (net.logSearch b a q searches polled s).flags = s.flags := by
  unfold logSearch
  split
  · rfl
  · rfl

theorem logSearch_polled : (net.logSearch b a q searches polled s).polled =
    if searches then Function.update s.polled a polled else s.polled := by
  unfold logSearch
  split
  · rfl
  · rfl

theorem logSearch_guards : (net.logSearch b a q searches polled s).guards = (if searches then
    (net.evaluated s.toNetState a (net.searched b s.toNetState a q)).map fun t => (a, t, s.chans) else []) ++ s.guards := by
  unfold logSearch
  split
  · rfl
  · rfl

end Network

end

namespace Network

variable {A K Z Q T V D : Type} [DecidableEq A] [DecidableEq K] [DecidableEq Z] [DecidableEq Q] {net : Network A K Z Q T V D}
  {b : Build} {s s' : Simulation A K Z Q T V D} {a : A} {q : Q} {t : T} {e : Finset (NetEvent K Z)}

/-! ## Functions of one actor -/

omit [DecidableEq Q] in
theorem deliver_cases (h : (s.nodes a).Idle (net.fsm a)) (hs : net.deliver b a e s = some s') : ∃ n sent,
    NodeBase.Delivered (net.fsm a) b (net.check b s.toNetState a) (decide (Awake s.isActive e)) (s.nodes a) n sent ∧
      s' = ((net.logSearch b a (s.nodes a).currentState
        (!(s.nodes a).executing && (decide (Awake s.isActive e) || (s.nodes a).ct.isSome)) false
          { s with signals := Function.update s.signals a ((s.signals a).erase e) }).setNode a n).notifyActivation a sent := by
  obtain ⟨⟨n₁, sent⟩, hsig, hs⟩ := Option.bind_eq_some_iff.mp hs
  obtain ⟨⟨n₂, remove⟩, hret, hs⟩ := Option.bind_eq_some_iff.mp hs
  obtain ⟨rfl, hd⟩ := h.delivered hsig hret
  refine ⟨n₂, sent, hd, ?_⟩
  cases hren : s.renotified with
  | false =>
    simp only [hren, Bool.false_eq_true, if_false, Bool.not_false, Bool.and_false] at hs
    cases hs
    rfl
  | true =>
    simp only [hren, if_true, Bool.not_true, Bool.and_false, Bool.false_eq_true, if_false] at hs
    obtain ⟨_, _, hs⟩ := Option.bind_eq_some_iff.mp hs
    cases hs
    rfl

theorem resetNode_cases (h : (s.nodes a).Idle (net.fsm a)) : ∃ n sent, NodeBase.WasReset (net.fsm a)
      (net.check b { s.toNetState with vars := Function.update s.vars a (net.reset a (s.vars a)) } a) (s.nodes a) n sent ∧
    net.resetNode b a s = ((net.logSearch b a (some (net.initialState a)) (s.nodes a).callbackDriven false
      { s with vars := Function.update s.vars a (net.reset a (s.vars a)) }).setNode a n).notifyActivation a sent :=
  ⟨_, _, h.doReset _, rfl⟩

omit [DecidableEq Q] in
theorem setActive_cases {flag : Bool} (h : (s.nodes a).Idle (net.fsm a)) (hs : net.setActive b a flag s = some s') :
    ∃ n sent, NodeBase.Switched (net.fsm a) (net.check b s.toNetState a) (flag && (s.nodes a).useActivationCallback) (s.nodes a)
      n sent ∧ s' = ((net.logSearch b a (s.nodes a).currentState
        (!(s.nodes a).callbackDriven && (flag && (s.nodes a).useActivationCallback)) false s).setNode a n).notifyActivation a
          sent := by
  obtain ⟨⟨n, sent⟩, hn, heq⟩ := Option.bind_eq_some_iff.mp hs
  cases heq
  exact ⟨n, sent, h.setActive hn, rfl⟩

omit [DecidableEq Q] in
theorem setUseActivationCallback_cases (flag : Bool) (h : (s.nodes a).Idle (net.fsm a)) :
    ∃ n sent, NodeBase.Switched (net.fsm a) (net.check b s.toNetState a) ((s.nodes a).active && flag) (s.nodes a) n sent ∧
      net.setUseActivationCallback b a flag s = ((net.logSearch b a (s.nodes a).currentState
        (!(s.nodes a).callbackDriven && ((s.nodes a).active && flag)) false s).setNode a n).notifyActivation a sent :=
  ⟨_, _, h.setUseActivationCallback, rfl⟩

def logPoll (net : Network A K Z Q T V D) (b : Build) (a : A) (s : Simulation A K Z Q T V D) : Simulation A K Z Q T V D :=
  net.logSearch b a (s.nodes a).currentState (!(s.nodes a).useActivationCallback) true s

/-- With the check that `schedule` asserts. -/
def logFire (net : Network A K Z Q T V D) (b : Build) (a : A) (n : NodeBase Q T (Finset (NetEvent K Z)))
    (s : Simulation A K Z Q T V D) : Simulation A K Z Q T V D :=
  if b.asserts then net.logGuards a n.ct.toList (net.logPoll b a s) else net.logPoll b a s

omit [DecidableEq Q] in
@[simp] theorem logPoll_toNetState : (net.logPoll b a s).toNetState = s.toNetState := logSearch_toNetState

omit [DecidableEq Q] in
theorem logFire_eq {n : NodeBase Q T (Finset (NetEvent K Z))} :
    net.logFire b a n s = net.logPoll b a s ∨ ∃ tl, net.logFire b a n s = net.logGuards a tl (net.logPoll b a s) := by
  unfold logFire
  split
  · exact .inr ⟨_, rfl⟩
  · exact .inl rfl

omit [DecidableEq Q] in
@[simp] theorem logFire_toNetState {n : NodeBase Q T (Finset (NetEvent K Z))} :
    (net.logFire b a n s).toNetState = s.toNetState := by
  unfold logFire
  split
  · rw [logGuards_toNetState, logPoll_toNetState]
  · exact logPoll_toNetState

inductive Polled (net : Network A K Z Q T V D) (b : Build) (a : A) (s : Simulation A K Z Q T V D) :
    Simulation A K Z Q T V D → Prop where
  | inactive (ha : (s.nodes a).active = false) : Polled net b a s { s with control := .idle }
  | done {n} (ha : (s.nodes a).active = true) (hn : n = ((s.nodes a).canFire (net.fsm a) (net.check b s.toNetState a)).1)
      (hct : n.ct = none) : Polled net b a s { (net.logPoll b a s).setNode a n with control := .idle }
  | fire {n t} (ha : (s.nodes a).active = true) (hn : n = ((s.nodes a).canFire (net.fsm a) (net.check b s.toNetState a)).1)
      (hct : n.ct = some t) (hassert : b.assert (net.check b s.toNetState a t = true) = some ()) :
      Polled net b a s { (net.logFire b a n s).setNode a { n with executing := true } with control := .acting a t }

omit [DecidableEq Q] in
theorem poll_cases (hs : net.poll b a s = some s') : Polled net b a s s' := by
  cases ha : (s.nodes a).active with
  | false =>
    rw [poll, if_neg (by simp [ha])] at hs
    cases hs
    exact .inactive ha
  | true =>
    rw [poll, if_pos ha] at hs
    generalize hn : (s.nodes a).canFire (net.fsm a) (net.check b s.toNetState a) = r at hs
    obtain ⟨n, fire⟩ := r
    have hfire : fire = n.ct.isSome := by
      rw [NodeBase.canFire, if_pos ha] at hn
      cases hn
      rfl
    cases hct : n.ct with
    | none =>
      rw [hct] at hfire
      cases hfire
      cases hs
      exact .done ha (by rw [hn]) hct
    | some t =>
      rw [hct] at hfire
      cases hfire
      simp only [Option.isSome_some, if_true] at hs
      obtain ⟨⟨n', t'⟩, hsched, heq⟩ := Option.bind_eq_some_iff.mp hs
      obtain ⟨t₁, hct', hsched⟩ := Option.bind_eq_some_iff.mp hsched
      obtain ⟨_, hassert, hsched⟩ := Option.bind_eq_some_iff.mp hsched
      obtain ⟨_, _, hsched⟩ := Option.bind_eq_some_iff.mp hsched
      change b.assert (net.check b (net.logFire b a n s).toNetState a t₁ = true) = _ at hassert
      rw [logFire_toNetState] at hassert
      cases hct.symm.trans hct'
      cases hsched
      cases heq
      exact .fire ha (by rw [hn]) hct hassert

omit [DecidableEq Q] in
theorem Polled.nodes_of_ne {a' : A} (h : Polled net b a s s') (ha' : a' ≠ a) : s'.nodes a' = s.nodes a' := by
  cases h with
  | inactive => rfl
  | done => simp only [Simulation.setNode_toNetState, Function.update_of_ne ha', logPoll_toNetState]
  | fire => simp only [Simulation.setNode_toNetState, Function.update_of_ne ha', logFire_toNetState]

omit [DecidableEq Q] in
theorem Polled.chans (h : Polled net b a s s') : s'.chans = s.chans := by
  cases h with
  | inactive => rfl
  | done => simp only [Simulation.setNode_toNetState, logPoll_toNetState]
  | fire => simp only [Simulation.setNode_toNetState, logFire_toNetState]

omit [DecidableEq A] [DecidableEq Q] in
theorem canFire_cases {n : NodeBase Q T (Finset (NetEvent K Z))} {check : T → Bool}
    (hn : n = ((s.nodes a).canFire (net.fsm a) check).1) :
    n = s.nodes a ∨ (s.nodes a).useActivationCallback = false ∧ n = (s.nodes a).searchActiveTransition (net.fsm a) check := by
  subst hn
  unfold NodeBase.canFire
  split
  · cases huse : (s.nodes a).useActivationCallback with
    | true => exact .inl rfl
    | false => exact .inr ⟨rfl, rfl⟩
  · exact .inl rfl

omit [DecidableEq A] [DecidableEq Q] in
theorem canFire_same {n : NodeBase Q T (Finset (NetEvent K Z))} {check : T → Bool} (h : (s.nodes a).Idle (net.fsm a))
    (hn : n = ((s.nodes a).canFire (net.fsm a) check).1) : n.Idle (net.fsm a) ∧ n.executing = (s.nodes a).executing ∧
      (n.callbackDriven = true → n = s.nodes a) := by
  rcases canFire_cases hn with rfl | ⟨huse, rfl⟩
  · exact ⟨h, rfl, fun _ => rfl⟩
  · refine ⟨h.searched, rfl, fun hdriven => ?_⟩
    have hnot : ((s.nodes a).active && (s.nodes a).useActivationCallback) = true := hdriven
    rw [huse, Bool.and_false] at hnot
    cases hnot

variable [Token D] {k : K} {o : FifoOp D}

omit [DecidableEq A] [DecidableEq Z] [DecidableEq Q] in
theorem chanOp_cases {s s' : NetState A K Z Q T V D} (h : net.chanOp b k o s = some s') :
    ∃ ch, (net.kind k).step b (s.chans k) o = some ch ∧ s' = { s with
      chans := Function.update s.chans k (ch.withEventsOf (s.chans k))
      calls := ((net.kind k).calls (s.chans k) ch o).map fun c => (.chan k c.1, c.2) } := by
  obtain ⟨ch, hch, heq⟩ := Option.bind_eq_some_iff.mp h
  cases heq
  exact ⟨ch, hch, rfl⟩

/-! ## Steps -/

/-- Tokens, calls and variables change, and the control outside of polling. -/
structure Silent (s s' : Simulation A K Z Q T V D) : Prop where
  initialTokens : ∀ k, (s'.chans k).initialTokens = (s.chans k).initialTokens
  nodes : s'.nodes = s.nodes
  request : s'.request = s.request
  flags : s'.flags = s.flags
  polled : s'.polled = s.polled
  guards : s'.guards = s.guards
  busy : ∀ a, s.control = .polling a → ¬ s.Settled
  control : ∀ a, s'.control = .polling a → s.control = .polling a

def Resets (s : NetState A K Z Q T V D) (l : Label A K Z) (a : A) : Prop :=
  l = .reset (.inr a) ∨ l = .step ∧ ∃ a' t todo, s.control = .executing a' t (.reset (.inr a) :: todo)

inductive Stepped (net : Network A K Z Q T V D) (b : Build) (s : Simulation A K Z Q T V D) :
    Label A K Z → Simulation A K Z Q T V D → Prop where
  | silent {l s'} (h : Silent s s') : Stepped net b s l s'
  | delivered {a e n sent} (he : e ∈ s.signals a)
      (hn : NodeBase.Delivered (net.fsm a) b (net.check b s.toNetState a) (decide (Awake s.isActive e)) (s.nodes a) n sent) :
      Stepped net b s (.deliver a e) (((net.logSearch b a (s.nodes a).currentState
        (!(s.nodes a).executing && (decide (Awake s.isActive e) || (s.nodes a).ct.isSome)) false
          { s with signals := Function.update s.signals a ((s.signals a).erase e) }).setNode a n).notifyActivation a sent)
  | reset {l a n sent control} (hl : Resets s.toNetState l a) (hs : s.Settled) (hc : ∀ a, s.control ≠ .polling a)
      (hc' : ∀ a, control ≠ .polling a)
      (hn : NodeBase.WasReset (net.fsm a) (net.check b { s.toNetState with
        vars := Function.update s.vars a (net.reset a (s.vars a)), control } a) (s.nodes a) n sent) :
      Stepped net b s l (((net.logSearch b a (some (net.initialState a)) (s.nodes a).callbackDriven false
        { s with vars := Function.update s.vars a (net.reset a (s.vars a)), control }).setNode a n).notifyActivation a sent)
  | switched {l a n sent on} (hl : ∃ flag, l = .setActive a flag ∨ l = .setUseActivationCallback a flag) (hs : s.Settled)
      (hc : s.control.mayCall = true) (hn : NodeBase.Switched (net.fsm a) (net.check b s.toNetState a) on (s.nodes a) n sent) :
      Stepped net b s l (((net.logSearch b a (s.nodes a).currentState (!(s.nodes a).callbackDriven && on) false s).setNode
        a n).notifyActivation a sent)
  | run {a : A} (hs : s.Settled) (hc : s.control = .idle) :
      Stepped net b s (.run a) { s with request := Function.update s.request a false, control := .polling a }
  | polled {a : A} {s' : Simulation A K Z Q T V D} (hs : s.Settled) (hc : s.control = .polling a)
      (hp : Polled net b a s s') : Stepped net b s .step s'
  | finished {a : A} {t : T} (hs : s.Settled) (hc : s.control = .executing a t []) :
      Stepped net b s .step (net.finish b a t s)

omit [DecidableEq A] [DecidableEq Z] [DecidableEq Q] in
theorem silent_chanOp {k : K} {o : FifoOp D} {control : Control A K Z T D} (hc : ∀ a, s.control ≠ .polling a)
    (hc' : ∀ a, control ≠ .polling a) {s₁ : NetState A K Z Q T V D}
    (h : net.chanOp b k o { s.toNetState with control } = some s₁) : Silent s { s with toNetState := s₁ } := by
  obtain ⟨ch, hch, rfl⟩ := chanOp_cases h
  refine ⟨fun k' => ?_, rfl, rfl, rfl, rfl, rfl, fun a h => absurd h (hc a), fun a h => absurd h (hc' a)⟩
  by_cases hk : k' = k
  · subst hk
    simp only [Function.update_self]
    have hinit : ch.initialTokens = (s.chans k').initialTokens := ChanKind.initialTokens_step hch
    exact hinit
  · simp only [Function.update_of_ne hk]

omit [DecidableEq A] [DecidableEq Z] [DecidableEq Q] [Token D] in
theorem withEventsOf_callChans {chans : K → FifoChan D Bool} {c : NetEvent K Z × Call} {k : K} :
    (NetState.callChans chans c k).withEventsOf (chans k) = chans k := by
  obtain ⟨e, c⟩ := c
  cases e with
  | sae z => rfl
  | chan k' e =>
    simp only [NetState.callChans]
    by_cases hk : k = k'
    · subst hk
      rw [Function.update_self]
      cases e with
      | data n => rfl
      | space n => rfl
    · rw [Function.update_of_ne hk]
      rfl

theorem doReset_cases {r : (K ⊕ Z) ⊕ A} {l : Label A K Z} {control : Control A K Z T D} (hi : ∀ a, (s.nodes a).Idle (net.fsm a))
    (hs : s.Settled) (hc : ∀ a, s.control ≠ .polling a) (hc' : ∀ a, control ≠ .polling a)
    (hl : ∀ a, r = .inr a → Resets s.toNetState l a) (h : net.doReset b r { s with control } = some s') :
    Stepped net b s l s' := by
  match r with
  | .inl (.inl k) =>
    obtain ⟨s₁, ho, heq⟩ := Option.bind_eq_some_iff.mp h
    cases heq
    exact .silent (silent_chanOp hc hc' ho)
  | .inl (.inr z) =>
    cases h
    exact .silent ⟨fun _ => rfl, rfl, rfl, rfl, rfl, rfl, fun a h => absurd h (hc a), fun a h => absurd h (hc' a)⟩
  | .inr a =>
    cases h
    have hi' : (({ s with control } : Simulation A K Z Q T V D).nodes a).Idle (net.fsm a) := hi a
    obtain ⟨n, sent, hn, heq⟩ := resetNode_cases (b := b) hi'
    rw [heq]
    exact .reset (hl a rfl) hs hc hc' hn

variable [Fintype A]

theorem step_cases {l : Label A K Z} (hi : ∀ a, (s.nodes a).Idle (net.fsm a)) (h : net.step b s l = some s') :
    Stepped net b s l s' := by
  cases l with
  | deliver a e =>
    obtain ⟨he, h⟩ := Option.ite_none_right_eq_some.mp h
    obtain ⟨n, sent, hn, rfl⟩ := deliver_cases (hi a) h
    exact .delivered he hn
  | call =>
    obtain ⟨_, h⟩ := Option.ite_none_right_eq_some.mp h
    unfold nextCall at h
    split at h
    · cases h
    · rename_i c calls hcalls
      cases h
      have hinit : ∀ k, (NetState.callChans s.chans c k).initialTokens = (s.chans k).initialTokens := by
        intro k
        have hsame : (NetState.callChans s.chans c k).withEventsOf (s.chans k) = s.chans k := withEventsOf_callChans
        have hinit := congrArg FifoChan.initialTokens hsame
        exact hinit
      refine .silent ⟨hinit, rfl, rfl, rfl, rfl, rfl, fun a _ hs => ?_, fun a h => h⟩
      rw [hs.1] at hcalls
      cases hcalls
  | reset r =>
    obtain ⟨⟨hs, hidle⟩, h⟩ := Option.ite_none_right_eq_some.mp h
    have hc : ∀ a, s.control ≠ .polling a := by
      intro a hc
      rw [hc] at hidle
      cases hidle
    exact doReset_cases hi hs hc hc (fun a ha => .inl (by rw [ha])) h
  | setActive a flag =>
    obtain ⟨⟨hs, hc⟩, h⟩ := Option.ite_none_right_eq_some.mp h
    obtain ⟨n, sent, hn, rfl⟩ := setActive_cases (hi a) h
    exact .switched ⟨flag, .inl rfl⟩ hs hc hn
  | setUseActivationCallback a flag =>
    obtain ⟨⟨hs, hc⟩, h⟩ := Option.ite_none_right_eq_some.mp h
    cases h
    obtain ⟨n, sent, hn, heq⟩ := setUseActivationCallback_cases (b := b) flag (hi a)
    rw [heq]
    exact .switched ⟨flag, .inr rfl⟩ hs hc hn
  | run a =>
    obtain ⟨⟨hs, hidle, _⟩, h⟩ := Option.ite_none_right_eq_some.mp h
    cases h
    refine .run hs ?_
    cases hc : s.control with
    | idle => rfl
    | polling | acting | executing =>
      rw [hc] at hidle
      cases hidle
  | step =>
    obtain ⟨hs, h⟩ := Option.ite_none_right_eq_some.mp h
    unfold Network.proceed at h
    split at h
    · cases h
    · rename_i hc
      exact .polled hs hc (poll_cases h)
    · rename_i hc
      cases h
      have hbusy : ∀ a, s.control ≠ .polling a := by
        rw [hc]
        rintro _ ⟨⟩
      exact .silent ⟨fun _ => rfl, rfl, rfl, rfl, rfl, rfl, fun a h => absurd h (hbusy a), by rintro _ ⟨⟩⟩
    · rename_i hc
      cases h
      exact .finished hs hc
    · rename_i a t task todo hc
      have hbusy : ∀ a, s.control ≠ .polling a := by
        rw [hc]
        rintro _ ⟨⟩
      cases task with
      | op k o =>
        obtain ⟨s₁, ho, heq⟩ := Option.bind_eq_some_iff.mp h
        cases heq
        exact .silent (silent_chanOp hbusy (by rintro _ ⟨⟩) ho)
      | copy k k' n =>
        obtain ⟨⟨head, ch⟩, hcopy, heq⟩ := Option.bind_eq_some_iff.mp h
        cases heq
        refine .silent ⟨fun k'' => ?_, rfl, rfl, rfl, rfl, rfl, fun a h => absurd h (hbusy a), by rintro _ ⟨⟩⟩
        obtain ⟨hhead, hch⟩ := copyTokens_initialTokens hcopy
        by_cases hk' : k'' = k'
        · subst hk'
          simp only [Function.update_self]
          exact hch
        · simp only [Function.update_of_ne hk']
          by_cases hk : k'' = k
          · subst hk
            rw [Function.update_self]
            exact hhead
          · rw [Function.update_of_ne hk]
      | produce z n =>
        obtain ⟨_, _, heq⟩ := Option.bind_eq_some_iff.mp h
        cases heq
        exact .silent ⟨fun _ => rfl, rfl, rfl, rfl, rfl, rfl, fun a h => absurd h (hbusy a), by rintro _ ⟨⟩⟩
      | reset r =>
        refine doReset_cases hi hs hbusy (by rintro _ ⟨⟩) (fun a' ha => .inr ⟨rfl, a, t, todo, ?_⟩) h
        rw [hc, ha]

omit [Fintype A] [Token D] in
theorem Stepped.initialTokens {l : Label A K Z} (hs : Stepped net b s l s') (k : K) :
    (s'.chans k).initialTokens = (s.chans k).initialTokens := by
  cases hs with
  | silent hsame => exact hsame.initialTokens k
  | run => rfl
  | delivered | reset | switched =>
    rw [Simulation.notifyActivation_toNetState, Simulation.setNode_toNetState, logSearch_toNetState]
  | polled _ _ hp => rw [hp.chans]
  | finished => simp only [Network.finish, Simulation.setNode_toNetState, logSearch_toNetState]

theorem run_mono {P P' : Simulation A K Z Q T V D → Label A K Z → Prop} (h : ∀ s l, P s l → P' s l)
    (hr : Relation.ReflTransGen (net.StepOf b P) s s') : Relation.ReflTransGen (net.StepOf b P') s s' := by
  refine Relation.ReflTransGen.mono (fun s s' => ?_) _ _ hr
  rintro ⟨l, hl, hs⟩
  exact ⟨l, h s l hl, hs⟩

/-! ## A scheduler -/

/-- What comes next where listeners are told, and requests served, in the order of the actors,
after the resets at the start of the simulation. -/
def next (net : Network A K Z Q T V D) (actors : List A) (resets : List ((K ⊕ Z) ⊕ A)) (s : Simulation A K Z Q T V D) :
    Option (Label A K Z × List ((K ⊕ Z) ⊕ A)) :=
  match actors.findSome? fun a => ((s.nodes a).currentState.elim [] (net.transitions a)).findSome? fun t =>
    if (net.rule a t).ioPatternWaiter ∈ s.signals a then some (.deliver a (net.rule a t).ioPatternWaiter) else none with
  | some l => some (l, resets)
  | none =>
    if s.calls.isEmpty then
      if s.control.isIdle then
        match resets with
        | r :: resets => some (.reset r, resets)
        | [] => (actors.find? s.request).map fun a => (.run a, [])
      else some (.step, resets)
    else some (.call, resets)

/-- At most `fuel` steps, all of them allowed. -/
def simulate (net : Network A K Z Q T V D) (b : Build) (allowed : Simulation A K Z Q T V D → Label A K Z → Prop)
    [∀ s, DecidablePred (allowed s)] (actors : List A) :
    Nat → List ((K ⊕ Z) ⊕ A) → Simulation A K Z Q T V D → Option (Simulation A K Z Q T V D)
  | 0, _, s => some s
  | fuel + 1, resets, s =>
    match net.next actors resets s with
    | none => some s
    | some (l, resets) => if allowed s l then (net.step b s l).bind (simulate net b allowed actors fuel resets) else none

theorem simulate_reaches {allowed : Simulation A K Z Q T V D → Label A K Z → Prop} [∀ s, DecidablePred (allowed s)]
    {actors : List A} {fuel : Nat} : ∀ {resets : List ((K ⊕ Z) ⊕ A)} {s : Simulation A K Z Q T V D},
    net.simulate b allowed actors fuel resets s = some s' → Relation.ReflTransGen (net.StepOf b allowed) s s' := by
  induction fuel with
  | zero =>
    intro resets s h
    cases h
    exact .refl
  | succ fuel ih =>
    intro resets s h
    rw [simulate] at h
    split at h
    · cases h
      exact .refl
    · obtain ⟨hallowed, h⟩ := Option.ite_none_right_eq_some.mp h
      obtain ⟨s₁, hs, h⟩ := Option.bind_eq_some_iff.mp h
      exact .head ⟨_, hallowed, hs⟩ (ih h)

end Network

end SysteMoC
