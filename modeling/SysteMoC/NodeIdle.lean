import SysteMoC.Registration

/-!
# Node functions between deliveries

What the functions of a node do while none of its events is being signalled: the
cached transition, the notification and the registration they leave.
-/

namespace SysteMoC

namespace NodeBase

variable {Q T W : Type} [DecidableEq Q] [DecidableEq W] {fsm : RuntimeFSM Q T W} {n n₁ n₂ : NodeBase Q T W} {b : Build}
  {check : T → Bool} {e : W} {isActive remove : Bool} {sent : Option Bool}

/-- Registered at the waiters of the runtime state, outside of deliveries. -/
structure Idle (fsm : RuntimeFSM Q T W) (n : NodeBase Q T W) : Prop where
  listening : n.listening = n.required fsm
  signalingEvent : n.signalingEvent = none
  signalingEventRemove : n.signalingEventRemove = false

omit [DecidableEq Q] in
theorem Idle.consistent (h : n.Idle fsm) : n.Consistent fsm False := .of_required h.listening h.signalingEventRemove

omit [DecidableEq Q] in
theorem Consistent.idle (h : n.Consistent fsm False) (hs : n.signalingEvent = none) : n.Idle fsm := by
  have hr : n.signalingEventRemove = false := by
    cases hr : n.signalingEventRemove with
    | false => rfl
    | true =>
      obtain ⟨e, he, _⟩ := h.left hr
      rw [hs] at he
      cases he
  exact ⟨h.kept hr, hs, hr⟩

/-- What a delivered event does to a node: nothing while it executes, a search if the event is
active or a transition is cached. -/
inductive Delivered (fsm : RuntimeFSM Q T W) (b : Build) (check : T → Bool) (isActive : Bool) (n : NodeBase Q T W) :
    NodeBase Q T W → Option Bool → Prop where
  | executing (h : n.executing = true) : Delivered fsm b check isActive n n none
  | activated (h : n.executing = false) (ha : isActive = true)
      (hassert : b.debugAssert (¬ (n.ct.isSome ∧ (n.searchActiveTransition fsm check).ct.isNone)) = some ()) :
      Delivered fsm b check isActive n (n.searchActiveTransition fsm check)
        (if (n.searchActiveTransition fsm check).ct.isSome then some true else none)
  | deactivated (h : n.executing = false) (ha : isActive = false) (hct : n.ct.isSome) :
      Delivered fsm b check isActive n (n.searchActiveTransition fsm check)
        (if (n.searchActiveTransition fsm check).ct.isNone then some false else none)
  | ignored (h : n.executing = false) (ha : isActive = false) (hct : n.ct = none) : Delivered fsm b check isActive n n none

omit [DecidableEq Q] in
theorem Idle.delivered (h : n.Idle fsm) (hs : n.signaled b fsm check e isActive = some (n₁, sent))
    (hr : n₁.signaledReturn b e = some (n₂, remove)) : remove = false ∧ Delivered fsm b check isActive n n₂ sent := by
  obtain ⟨cs, ct, ex, ac, use, sig, rem, lis⟩ := n
  cases h.signalingEvent
  cases h.signalingEventRemove
  cases signaledReturn_eq hr
  obtain ⟨_, _, hs⟩ := Option.bind_eq_some_iff.mp hs
  cases ex with
  | true =>
    cases hs
    exact ⟨rfl, .executing rfl⟩
  | false =>
    simp only [Bool.not_false, if_true] at hs
    obtain ⟨_, _, hs⟩ := Option.bind_eq_some_iff.mp hs
    obtain ⟨_, _, hs⟩ := Option.bind_eq_some_iff.mp hs
    cases isActive with
    | true =>
      simp only [if_true] at hs
      obtain ⟨_, hassert, hs⟩ := Option.bind_eq_some_iff.mp hs
      cases hs
      exact ⟨rfl, .activated rfl rfl hassert⟩
    | false =>
      simp only [Bool.false_eq_true, if_false] at hs
      cases ct with
      | none =>
        cases hs
        exact ⟨rfl, .ignored rfl rfl rfl⟩
      | some t =>
        cases hs
        exact ⟨rfl, .deactivated rfl rfl rfl⟩

omit [DecidableEq Q] [DecidableEq W] in
theorem searchActiveTransition_ct : (n.searchActiveTransition fsm check).ct =
    n.currentState.bind fun q => (fsm.transitions q).find? check := by
  show n.currentState.bind _ = _
  congr
  funext q
  exact SysteMoC.searchActiveTransition_eq check _

omit [DecidableEq Q] in
theorem Idle.searched (h : n.Idle fsm) : (n.searchActiveTransition fsm check).Idle fsm := ⟨h.1, h.2, h.3⟩

theorem Idle.setCurrentState {q : Q} (h : n.Idle fsm) : (n.setCurrentState fsm q).Idle fsm := by
  have hnone : ∀ e, n.signalingEvent ≠ some e := by
    intro e he
    rw [h.signalingEvent] at he
    cases he
  refine (h.consistent.setCurrentState (fun _ _ e he => absurd he (hnone e)) fun _ _ e he => absurd he (hnone e)).idle ?_
  exact sameCall_setCurrentState.2.trans h.signalingEvent

/-- What moving to a state leaves of the node. -/
structure Moved (q : Q) (n n' : NodeBase Q T W) : Prop where
  currentState : n'.currentState = some q
  ct : n'.ct = none
  executing : n'.executing = n.executing
  active : n'.active = n.active
  useActivationCallback : n'.useActivationCallback = n.useActivationCallback

omit [DecidableEq Q] [DecidableEq W] in
theorem Moved.callbackDriven {q : Q} (h : Moved q n n₁) : n₁.callbackDriven = n.callbackDriven := by
  rw [NodeBase.callbackDriven, h.active, h.useActivationCallback, NodeBase.callbackDriven]

theorem moved_setCurrentState {q : Q} : Moved q n (n.setCurrentState fsm q) := by
  unfold NodeBase.setCurrentState
  split
  · split
    · cases hcur : n.currentState with
      | none => exact ⟨rfl, rfl, rfl, rfl, rfl⟩
      | some q₀ => exact ⟨rfl, rfl, rfl, rfl, rfl⟩
    · rename_i hq
      exact ⟨not_not.mp hq, rfl, rfl, rfl, rfl⟩
  · exact ⟨rfl, rfl, rfl, rfl, rfl⟩

/-- A node after a reset, and what it notifies. -/
structure WasReset (fsm : RuntimeFSM Q T W) (check : T → Bool) (n n' : NodeBase Q T W) (sent : Option Bool) : Prop where
  idle : n'.Idle fsm
  executing : n'.executing = n.executing
  callbackDriven : n'.callbackDriven = n.callbackDriven
  currentState : n'.currentState = some fsm.initialState
  ct : n'.ct = if n.callbackDriven then (fsm.transitions fsm.initialState).find? check else none
  sent : sent = if n.callbackDriven then some n'.ct.isSome else none

theorem Idle.doReset (h : n.Idle fsm) (check : T → Bool) :
    WasReset fsm check n (n.doReset fsm check).1 (n.doReset fsm check).2 := by
  have hidle : (n.setCurrentState fsm fsm.initialState).Idle fsm := h.setCurrentState
  have hmoved : Moved fsm.initialState n (n.setCurrentState fsm fsm.initialState) := moved_setCurrentState
  unfold NodeBase.doReset
  simp only
  generalize n.setCurrentState fsm fsm.initialState = n₁ at hidle hmoved
  rw [show (n₁.useActivationCallback && n₁.active) = n.callbackDriven by rw [← hmoved.callbackDriven]; exact Bool.and_comm _ _]
  split
  · rename_i hc
    refine ⟨hidle.searched, hmoved.executing, hmoved.callbackDriven, hmoved.currentState, ?_, (if_pos hc).symm⟩
    rw [if_pos hc]
    exact searchActiveTransition_ct.trans (by rw [hmoved.currentState]; rfl)
  · rename_i hc
    exact ⟨hidle, hmoved.executing, hmoved.callbackDriven, hmoved.currentState, hmoved.ct.trans (if_neg hc).symm,
      (if_neg hc).symm⟩

/-- A node after the execution of a transition. -/
structure WasScheduled (fsm : RuntimeFSM Q T W) (check : T → Bool) (t : T) (n n' : NodeBase Q T W) : Prop where
  idle : n'.Idle fsm
  executing : n'.executing = false
  callbackDriven : n'.callbackDriven = n.callbackDriven
  currentState : n'.currentState = some (fsm.destState t)
  ct : n'.ct = if n.useActivationCallback then (fsm.transitions (fsm.destState t)).find? check else none

theorem Idle.scheduleReturn (h : n.Idle fsm) (check : T → Bool) (t : T) :
    WasScheduled fsm check t n (n.scheduleReturn fsm check t) := by
  have hidle : (n.setCurrentState fsm (fsm.destState t)).Idle fsm := h.setCurrentState
  have hmoved : Moved (fsm.destState t) n (n.setCurrentState fsm (fsm.destState t)) := moved_setCurrentState
  unfold NodeBase.scheduleReturn
  simp only
  generalize n.setCurrentState fsm (fsm.destState t) = n₁ at hidle hmoved
  have hidle₁ : { n₁ with executing := false }.Idle fsm := ⟨hidle.1, hidle.2, hidle.3⟩
  split
  · rename_i hc
    have hc' : n.useActivationCallback = true := hmoved.useActivationCallback.symm.trans hc
    refine ⟨hidle₁.searched, rfl, hmoved.callbackDriven, hmoved.currentState, ?_⟩
    rw [if_pos hc']
    exact searchActiveTransition_ct.trans (by rw [hmoved.currentState]; rfl)
  · rename_i hc
    have hc' : ¬ n.useActivationCallback = true := fun h => hc (hmoved.useActivationCallback.trans h)
    exact ⟨hidle₁, rfl, hmoved.callbackDriven, hmoved.currentState, hmoved.ct.trans (if_neg hc').symm⟩

/-- A node that is switched on or off, or left as it is. -/
structure Switched (fsm : RuntimeFSM Q T W) (check : T → Bool) (on : Bool) (n n' : NodeBase Q T W) (sent : Option Bool) :
    Prop where
  idle : n'.Idle fsm
  executing : n'.executing = n.executing
  callbackDriven : n'.callbackDriven = on
  currentState : n'.currentState = n.currentState
  ct : n'.ct = if n.currentState.isSome && !n.callbackDriven && on then
      n.currentState.bind fun q => (fsm.transitions q).find? check
    else n.ct
  sent : if n.currentState.isSome && !n.callbackDriven && on then sent = some n'.ct.isSome
    else if n.callbackDriven && !on then sent ≠ some true else sent = none

omit [DecidableEq Q] in
theorem Idle.switched {q : Q} (h : n.Idle fsm) (hq : n.currentState = some q) (n₁ : NodeBase Q T W)
    (hcur : n₁.currentState = n.currentState) (hl : n₁.listening = n.listening)
        (hr : n₁.signalingEventRemove = n.signalingEventRemove)
    (he : n₁.signalingEvent = n.signalingEvent) (ct : Option T) : { NodeBase.switched fsm q n n₁ with ct }.Idle fsm := by
  have hnone : ∀ e, n.signalingEvent ≠ some e := by
    intro e he
    rw [h.signalingEvent] at he
    cases he
  have hcons := h.consistent.switch hq hcur hl hr he (fun _ _ e he => absurd he (hnone e)) fun _ _ e he => absurd he (hnone e)
  have hidle := hcons.idle (switched_same.2.trans (he.trans h.signalingEvent))
  exact ⟨hidle.1, hidle.2, hidle.3⟩

omit [DecidableEq Q] in
theorem Idle.setActive {flag : Bool} (h : n.Idle fsm) (hs : n.setActive b fsm check flag = some (n₁, sent)) :
    Switched fsm check (flag && n.useActivationCallback) n n₁ sent := by
  have hidle : n₁.Idle fsm := by
    cases hq : n.currentState with
    | none =>
      obtain rfl : n₁ = _ := setActive_none hq hs
      refine ⟨?_, h.signalingEvent, h.signalingEventRemove⟩
      exact h.listening.trans ((required_none hq).trans (required_none (n := { n with active := flag }) hq).symm)
    | some q =>
      obtain ⟨ct, hn⟩ := setActive_some hq hs
      obtain rfl : n₁ = _ := hn
      exact h.switched hq { n with active := flag } rfl rfl rfl rfl ct
  obtain ⟨cs, ct, ex, ac, use, sig, rem, lis⟩ := n
  cases cs with
  | none =>
    cases hs
    refine ⟨hidle, rfl, rfl, rfl, rfl, ?_⟩
    cases ac <;> cases use <;> cases flag <;> simp [callbackDriven]
  | some q =>
    cases use with
    | false =>
      have hsame : some (⟨some q, ct, ex, flag, false, sig, rem, lis⟩, none) = some (n₁, sent) := by
        cases ac <;> cases flag <;> exact hs
      cases hsame
      cases ac <;> cases flag <;> exact ⟨hidle, rfl, rfl, rfl, rfl, rfl⟩
    | true =>
      cases ac with
      | true =>
        cases flag with
        | true =>
          cases hs
          exact ⟨hidle, rfl, rfl, rfl, rfl, rfl⟩
        | false =>
          cases hs
          refine ⟨hidle, rfl, rfl, rfl, rfl, ?_⟩
          show (if (!ex) = true then some false else none) ≠ some true
          cases ex <;> simp
      | false =>
        cases flag with
        | true =>
          obtain ⟨_, _, hs⟩ := Option.bind_eq_some_iff.mp hs
          cases hs
          exact ⟨hidle, rfl, rfl, rfl, searchActiveTransition_ct, rfl⟩
        | false =>
          cases hs
          exact ⟨hidle, rfl, rfl, rfl, rfl, rfl⟩

omit [DecidableEq Q] in
theorem Idle.setUseActivationCallback {flag : Bool} (h : n.Idle fsm) :
    Switched fsm check (n.active && flag) n (n.setUseActivationCallback fsm check flag).1
      (n.setUseActivationCallback fsm check flag).2 := by
  have hidle : (n.setUseActivationCallback fsm check flag).1.Idle fsm := by
    cases hq : n.currentState with
    | none =>
      rw [setUseActivationCallback_none hq]
      refine ⟨?_, h.signalingEvent, h.signalingEventRemove⟩
      exact h.listening.trans ((required_none hq).trans (required_none (n := { n with useActivationCallback := flag }) hq).symm)
    | some q =>
      obtain ⟨ct, hn⟩ := setUseActivationCallback_some fsm check flag hq
      rw [hn]
      exact h.switched hq { n with useActivationCallback := flag } rfl rfl rfl rfl ct
  obtain ⟨cs, ct, ex, ac, use, sig, rem, lis⟩ := n
  cases cs with
  | none =>
    refine ⟨hidle, rfl, rfl, rfl, rfl, ?_⟩
    cases ac <;> cases use <;> cases flag <;> simp [callbackDriven, NodeBase.setUseActivationCallback]
  | some q =>
    cases ac with
    | false =>
      cases use <;> cases flag <;> exact ⟨hidle, rfl, rfl, rfl, rfl, rfl⟩
    | true =>
      cases use with
      | true =>
        cases flag with
        | true => exact ⟨hidle, rfl, rfl, rfl, rfl, rfl⟩
        | false => exact ⟨hidle, rfl, rfl, rfl, rfl, Bool.noConfusion ∘ Option.some.inj⟩
      | false =>
        cases flag with
        | true => exact ⟨hidle, rfl, rfl, rfl, searchActiveTransition_ct, rfl⟩
        | false => exact ⟨hidle, rfl, rfl, rfl, rfl, rfl⟩

end NodeBase

end SysteMoC
