import Mathlib.Logic.Relation
import SysteMoC.Node

/-!
# Registered listeners

Calls of the node functions, with those that a scheduler makes while it is told of
an activation and the deliveries while a transition is executed. The node is
registered at the waiters of its runtime state unless one of these calls moves it
at the wrong moment.
-/

namespace SysteMoC

inductive Frame (T W : Type) where
  | delivering (e : W) (renotified called : Bool)
  | executing (t : T)

/-- A node with the calls that have not returned, the last one first. -/
structure NodeRun (Q T W : Type) where
  node : NodeBase Q T W
  frames : List (Frame T W)

inductive NodeCall (T W : Type) where
  | doReset (check : T → Bool)
  | setUseActivationCallback (check : T → Bool) (flag : Bool)
  | setActive (check : T → Bool) (flag : Bool)
  | schedule (check : T → Bool)
  | scheduleReturn (check : T → Bool)
  | deliver (check : T → Bool) (e : W) (isActive renotified : Bool)
  | deliverReturn

namespace NodeRun

variable {Q T W : Type} [DecidableEq Q] [DecidableEq W]

def new (Q T W : Type) : NodeRun Q T W := ⟨.new Q T W, []⟩

/-- A scheduler calls the node from outside or while `notifyActivation` has been
called; an action may call it too. -/
def mayCall (c : NodeRun Q T W) : Bool :=
  match c.frames with
  | .delivering _ _ called :: _ => called
  | _ => true

def mayDeliver (c : NodeRun Q T W) : Bool :=
  match c.frames with
  | .delivering _ _ _ :: _ => false
  | _ => true

/-- A waiter removes the listener whose `signaled` returns true; `renotified` drops
the result. -/
def step (b : Build) (fsm : RuntimeFSM Q T W) (c : NodeRun Q T W) : NodeCall T W → Option (NodeRun Q T W)
  | .doReset check => if c.mayCall then some { c with node := (c.node.doReset fsm check).1 } else none
  | .setUseActivationCallback check flag =>
    if c.mayCall then some { c with node := (c.node.setUseActivationCallback fsm check flag).1 } else none
  | .setActive check flag =>
    if c.mayCall then do
      let (n, _) ← c.node.setActive b fsm check flag
      return { c with node := n }
    else none
  | .schedule check =>
    if c.mayCall && !c.node.executing then do
      let (n, t) ← c.node.schedule b check
      return ⟨n, .executing t :: c.frames⟩
    else none
  | .scheduleReturn check =>
    match c.frames with
    | .executing t :: fs => some ⟨c.node.scheduleReturn fsm check t, fs⟩
    | _ => none
  | .deliver check e isActive renotified =>
    if c.mayDeliver && decide (e ∈ c.node.listening) && (isActive || !renotified) then do
      let (n, sent) ← c.node.signaled b fsm check e isActive
      return ⟨n, .delivering e renotified sent.isSome :: c.frames⟩
    else none
  | .deliverReturn =>
    match c.frames with
    | .delivering e renotified _ :: fs => do
      let (n, remove) ← c.node.signaledReturn b e
      if renotified then do
        b.assert (remove = false)
        return ⟨n, fs⟩
      else return ⟨{ n with listening := if remove then n.listening.erase e else n.listening }, fs⟩
    | _ => none

def Delivering (c : NodeRun Q T W) : Prop := ∃ e renotified called, .delivering e renotified called ∈ c.frames

end NodeRun

namespace NodeBase

variable {Q T W : Type} [DecidableEq Q] [DecidableEq W]

/-- The waiters of the current runtime state of an active, callback driven node. -/
def required (fsm : RuntimeFSM Q T W) (n : NodeBase Q T W) : Finset W :=
  if n.callbackDriven then (n.currentState.map fsm.am).getD ∅ else ∅

def Registered (fsm : RuntimeFSM Q T W) (n : NodeBase Q T W) : Prop :=
  n.listening = n.required fsm ∧ n.signalingEventRemove = false

end NodeBase

/-! ## Calls that keep the registration -/

namespace NodeRun

variable {Q T W : Type} [DecidableEq Q] [DecidableEq W]

/-- The event that is being delivered, not while executing, is renotified. -/
def Renotifying (c : NodeRun Q T W) : Prop := ∃ e called, c.frames.getLast? = some (.delivering e true called)

/-- The removal of the listener is not lost. -/
def MayLeave (fsm : RuntimeFSM Q T W) (c : NodeRun Q T W) : Prop :=
  ∀ e, c.node.signalingEvent = some e → e ∈ c.node.required fsm → ¬ c.Renotifying

/-- The listener is not removed after it has been added. -/
def MayEnter (fsm : RuntimeFSM Q T W) (c : NodeRun Q T W) (q : Q) : Prop :=
  ∀ e, c.node.signalingEvent = some e → e ∈ fsm.am q → c.node.signalingEventRemove = false ∧ e ∉ c.node.required fsm

def MayMove (fsm : RuntimeFSM Q T W) (c : NodeRun Q T W) (q : Q) : Prop :=
  c.node.callbackDriven = true → c.node.currentState ≠ some q → c.MayLeave fsm ∧ c.MayEnter fsm q

def MaySwitch (fsm : RuntimeFSM Q T W) (c : NodeRun Q T W) (callbackDriven : Bool) : Prop :=
  ∀ q, c.node.currentState = some q → c.node.callbackDriven ≠ callbackDriven →
    if callbackDriven then c.MayEnter fsm q else c.MayLeave fsm

/-- While an event is being delivered, no call takes the node away from it and back to
it, no other event is delivered once the node has been taken away, and a renotified
event is not left at all. -/
def Keeps (fsm : RuntimeFSM Q T W) (c : NodeRun Q T W) : NodeCall T W → Prop
  | .doReset _ => c.MayMove fsm fsm.initialState
  | .setUseActivationCallback _ flag => c.MaySwitch fsm (c.node.active && flag)
  | .setActive _ flag => c.MaySwitch fsm (flag && c.node.useActivationCallback)
  | .scheduleReturn _ => ∀ t fs, c.frames = .executing t :: fs → c.MayMove fsm (fsm.destState t)
  | .deliver _ e _ renotified =>
    c.node.signalingEventRemove = true → c.node.signalingEvent = some e ∧ renotified = false
  | _ => True

def KeepingStep (b : Build) (fsm : RuntimeFSM Q T W) (c c' : NodeRun Q T W) : Prop :=
  ∃ call, c.Keeps fsm call ∧ c.step b fsm call = some c'

end NodeRun

/-! ## What the node functions do to the listeners -/

namespace NodeBase

variable {Q T W : Type} {fsm : RuntimeFSM Q T W} {n n' : NodeBase Q T W} {ren : Prop} {q : Q} {check : T → Bool} {b : Build}

theorem schedule_eq {r : NodeBase Q T W × T} (h : n.schedule b check = some r) : r.1 = { n with executing := true } := by
  obtain ⟨t, _, h⟩ := Option.bind_eq_some_iff.mp h
  obtain ⟨_, _, h⟩ := Option.bind_eq_some_iff.mp h
  obtain ⟨_, _, h⟩ := Option.bind_eq_some_iff.mp h
  cases h
  rfl

theorem signaled_executing {e : W} {isActive : Bool} {r : NodeBase Q T W × Option Bool} (hx : n.executing = true)
    (h : n.signaled b fsm check e isActive = some r) : r = (n, none) := by
  obtain ⟨_, _, h⟩ := Option.bind_eq_some_iff.mp h
  rw [hx] at h
  cases h
  rfl

theorem signaled_idle {e : W} {isActive : Bool} {r : NodeBase Q T W × Option Bool} (hx : n.executing = false)
    (h : n.signaled b fsm check e isActive = some r) : ∃ ct, r.1 = { n with signalingEvent := some e, ct } := by
  obtain ⟨cs, ct, ex, ac, use, sig, rem, lis⟩ := n
  cases hx
  obtain ⟨_, _, h⟩ := Option.bind_eq_some_iff.mp h
  simp only [Bool.not_false, if_true] at h
  obtain ⟨_, _, h⟩ := Option.bind_eq_some_iff.mp h
  obtain ⟨_, _, h⟩ := Option.bind_eq_some_iff.mp h
  split at h
  · obtain ⟨_, _, h⟩ := Option.bind_eq_some_iff.mp h
    cases h
    exact ⟨_, rfl⟩
  · split at h
    · cases h
      exact ⟨_, rfl⟩
    · cases h
      exact ⟨_, rfl⟩

variable [DecidableEq W]

/-- Registered, but for an event that is being delivered and that the node has left. -/
structure Consistent (fsm : RuntimeFSM Q T W) (ren : Prop) (n : NodeBase Q T W) : Prop where
  kept : n.signalingEventRemove = false → n.listening = n.required fsm
  left : n.signalingEventRemove = true → ∃ e, n.signalingEvent = some e ∧ ¬ ren ∧ e ∉ n.required fsm ∧
    n.listening = insert e (n.required fsm)

theorem Consistent.same (h : n.Consistent fsm ren) (hreq : n'.required fsm = n.required fsm) (hl : n'.listening = n.listening)
    (hr : n'.signalingEventRemove = n.signalingEventRemove)
    (he : n.signalingEventRemove = true → n'.signalingEvent = n.signalingEvent) : n'.Consistent fsm ren where
  kept hr' := by
    rw [hl, hreq]
    exact h.kept (hr ▸ hr')
  left hr' := by
    rw [hr] at hr'
    rw [hl, hreq, he hr']
    exact h.left hr'

theorem required_of (hc : n.callbackDriven = true) (hq : n.currentState = some q) : n.required fsm = fsm.am q := by
  rw [NodeBase.required, if_pos hc, hq]
  rfl

theorem required_none (hq : n.currentState = none) : n.required fsm = ∅ := by
  rw [NodeBase.required, hq]
  split
  · rfl
  · rfl

theorem required_inactive (hc : n.callbackDriven = false) : n.required fsm = ∅ := by
  rw [NodeBase.required, if_neg (by simp [hc])]

/-- Nothing is listened to, or the event that is being delivered and that the node
has left. -/
def Deregistered (fsm : RuntimeFSM Q T W) (ren : Prop) (n n' : NodeBase Q T W) : Prop :=
  n'.signalingEventRemove = false ∧ n'.listening = ∅ ∨
    n'.signalingEventRemove = true ∧ ∃ e, n.signalingEvent = some e ∧ ¬ ren ∧
      (n.signalingEventRemove = true ∨ e ∈ n.required fsm) ∧ n'.listening = {e}

theorem Consistent.del (h : n.Consistent fsm ren) (hreq : n.required fsm = fsm.am q)
    (hleave : ∀ e, n.signalingEvent = some e → e ∈ n.required fsm → ¬ ren) :
    Deregistered fsm ren n (n.delMySelfAsListener fsm q) := by
  cases hr : n.signalingEventRemove with
  | true =>
    obtain ⟨e, he, hren, hnot, hl⟩ := h.left hr
    refine .inr ⟨by simp [delMySelfAsListener, hr], e, he, hren, .inl hr, ?_⟩
    rw [hreq] at hnot hl
    ext w
    simp only [delMySelfAsListener, hl, he, Finset.mem_sdiff, Finset.mem_insert, Finset.mem_filter, Finset.mem_singleton]
    grind
  | false =>
    have hl := h.kept hr
    rw [hreq] at hl
    by_cases hsig : ∃ e ∈ fsm.am q, n.signalingEvent = some e
    · obtain ⟨e, hmem, he⟩ := id hsig
      refine .inr ⟨by simp [delMySelfAsListener, hsig], e, he, hleave e he (hreq ▸ hmem), .inr (hreq ▸ hmem), ?_⟩
      ext w
      simp only [delMySelfAsListener, hl, he, Finset.mem_sdiff, Finset.mem_filter, Finset.mem_singleton]
      grind
    · refine .inl ⟨by simp [delMySelfAsListener, hsig, hr], ?_⟩
      ext w
      simp only [delMySelfAsListener, hl, Finset.mem_sdiff, Finset.mem_filter, Finset.notMem_empty, iff_false]
      grind

theorem Consistent.deregistered (h : n.Consistent fsm ren) (hreq : n.required fsm = ∅) : Deregistered fsm ren n n := by
  cases hr : n.signalingEventRemove with
  | true =>
    obtain ⟨e, he, hren, _, hl⟩ := h.left hr
    rw [hreq] at hl
    exact .inr ⟨hr, e, he, hren, .inl hr, hl⟩
  | false =>
    have hl := h.kept hr
    rw [hreq] at hl
    exact .inl ⟨hr, hl⟩

theorem Deregistered.add {n₁ n₂ : NodeBase Q T W} (h : Deregistered fsm ren n n₁)
    (henter : ∀ e, n.signalingEvent = some e → e ∈ fsm.am q → n.signalingEventRemove = false ∧ e ∉ n.required fsm)
    (hreq : n₂.required fsm = fsm.am q) (hl : n₂.listening = n₁.listening ∪ fsm.am q)
    (hr : n₂.signalingEventRemove = n₁.signalingEventRemove) (he : n₂.signalingEvent = n.signalingEvent) :
    n₂.Consistent fsm ren := by
  rcases h with ⟨hr₁, hl₁⟩ | ⟨hr₁, e, hsig, hren, hleft, hl₁⟩
  · refine ⟨fun _ => by simp [hl, hl₁, hreq], fun hr₂ => ?_⟩
    rw [hr, hr₁] at hr₂
    cases hr₂
  · refine ⟨fun hr₂ => ?_, fun _ => ⟨e, he.trans hsig, hren, ?_, ?_⟩⟩
    · rw [hr, hr₁] at hr₂
      cases hr₂
    · intro hmem
      rw [hreq] at hmem
      obtain ⟨hr₀, hnot⟩ := henter e hsig hmem
      rcases hleft with hr' | hmem'
      · rw [hr₀] at hr'
        cases hr'
      · exact hnot hmem'
    · rw [hl, hl₁, hreq]
      rfl

theorem Deregistered.consistent {n₁ n₂ : NodeBase Q T W} (h : Deregistered fsm ren n n₁) (hreq : n₂.required fsm = ∅)
    (hl : n₂.listening = n₁.listening) (hr : n₂.signalingEventRemove = n₁.signalingEventRemove)
    (he : n₂.signalingEvent = n.signalingEvent) : n₂.Consistent fsm ren := by
  rcases h with ⟨hr₁, hl₁⟩ | ⟨hr₁, e, hsig, hren, _, hl₁⟩
  · refine ⟨fun _ => by rw [hl, hl₁, hreq], fun hr₂ => ?_⟩
    rw [hr, hr₁] at hr₂
    cases hr₂
  · refine ⟨fun hr₂ => ?_, fun _ => ⟨e, he.trans hsig, hren, by simp [hreq], by rw [hl, hl₁, hreq]; rfl⟩⟩
    rw [hr, hr₁] at hr₂
    cases hr₂

theorem Consistent.settled {e : W} (h : n.Consistent fsm ren) (he : n.signalingEventRemove = true → n.signalingEvent = some e) :
    (if n.signalingEventRemove then n.listening.erase e else n.listening) = n.required fsm := by
  cases hr : n.signalingEventRemove with
  | false => exact h.kept hr
  | true =>
    obtain ⟨e', he', _, hnot, hl⟩ := h.left hr
    cases he'.symm.trans (he hr)
    rw [if_pos rfl, hl, Finset.erase_insert hnot]

theorem Consistent.of_required (hl : n.listening = n.required fsm) (hr : n.signalingEventRemove = false) : n.Consistent fsm ren :=
  ⟨fun _ => hl, fun hr' => by rw [hr] at hr'; cases hr'⟩

/-! ## The setters -/

theorem signaledReturn_eq {e : W} {r : NodeBase Q T W × Bool} (h : n.signaledReturn b e = some r) :
    r = ({ n with
      signalingEvent := if n.executing then n.signalingEvent else none
      signalingEventRemove := false }, n.signalingEventRemove) := by
  cases hx : n.executing with
  | true =>
    simp only [signaledReturn, hx, Bool.not_true, Bool.false_eq_true, if_false] at h
    cases h
    simp
  | false =>
    simp only [signaledReturn, hx, Bool.not_false, if_true] at h
    obtain ⟨_, _, h⟩ := Option.bind_eq_some_iff.mp h
    cases h
    rfl

/-- What a setter does with the listeners once it has set the flags to those of `n₁`. -/
def switched (fsm : RuntimeFSM Q T W) (q : Q) (n n₁ : NodeBase Q T W) : NodeBase Q T W :=
  if n.callbackDriven && !n₁.callbackDriven then n₁.delMySelfAsListener fsm q
  else if !n.callbackDriven && n₁.callbackDriven then n₁.addMySelfAsListener fsm q
  else n₁

theorem Consistent.switch (h : n.Consistent fsm ren) (hq : n.currentState = some q) {n₁ : NodeBase Q T W}
    (hcur : n₁.currentState = n.currentState) (hl : n₁.listening = n.listening)
    (hr : n₁.signalingEventRemove = n.signalingEventRemove) (he : n₁.signalingEvent = n.signalingEvent)
    (hleave : n.callbackDriven = true → n₁.callbackDriven = false → ∀ e, n.signalingEvent = some e → e ∈ n.required fsm → ¬ ren)
    (henter : n.callbackDriven = false → n₁.callbackDriven = true → ∀ e, n.signalingEvent = some e → e ∈ fsm.am q →
      n.signalingEventRemove = false ∧ e ∉ n.required fsm) :
    (switched fsm q n n₁).Consistent fsm ren := by
  unfold switched
  cases hc : n.callbackDriven with
  | true =>
    cases hc₁ : n₁.callbackDriven with
    | true =>
      change n₁.Consistent fsm ren
      refine h.same ?_ hl hr fun _ => he
      rw [required_of hc hq, required_of hc₁ (hcur.trans hq)]
    | false =>
      change (n₁.delMySelfAsListener fsm q).Consistent fsm ren
      refine (h.del (required_of hc hq) (hleave hc hc₁)).consistent (required_inactive hc₁) ?_ ?_ he
      · simp only [delMySelfAsListener, hl, he]
      · simp only [delMySelfAsListener, hr, he]
  | false =>
    cases hc₁ : n₁.callbackDriven with
    | true =>
      change (n₁.addMySelfAsListener fsm q).Consistent fsm ren
      refine (h.deregistered (required_inactive hc)).add (henter hc hc₁) (required_of hc₁ (hcur.trans hq)) ?_ hr he
      simp only [addMySelfAsListener, hl]
    | false =>
      change n₁.Consistent fsm ren
      refine h.same ?_ hl hr fun _ => he
      rw [required_inactive hc, required_inactive hc₁]

theorem switched_same {n₁ : NodeBase Q T W} : (switched fsm q n n₁).executing = n₁.executing ∧
    (switched fsm q n n₁).signalingEvent = n₁.signalingEvent := by
  unfold switched
  split
  · exact ⟨rfl, rfl⟩
  · split
    · exact ⟨rfl, rfl⟩
    · exact ⟨rfl, rfl⟩

def SameCall (n n' : NodeBase Q T W) : Prop := n'.executing = n.executing ∧ n'.signalingEvent = n.signalingEvent

theorem setUseActivationCallback_none {flag : Bool} (hq : n.currentState = none) :
    (n.setUseActivationCallback fsm check flag).1 = { n with useActivationCallback := flag } := by
  obtain ⟨cs, ct, ex, ac, use, sig, rem, lis⟩ := n
  cases hq
  rfl

theorem setActive_none {flag : Bool} (hq : n.currentState = none) {r : NodeBase Q T W × Option Bool}
    (h : n.setActive b fsm check flag = some r) : r.1 = { n with active := flag } := by
  obtain ⟨cs, ct, ex, ac, use, sig, rem, lis⟩ := n
  cases hq
  cases h
  rfl

theorem setUseActivationCallback_some (fsm : RuntimeFSM Q T W) (check : T → Bool) (flag : Bool) (hq : n.currentState = some q) :
    ∃ ct, (n.setUseActivationCallback fsm check flag).1 = { switched fsm q n
        { n with useActivationCallback := flag } with ct } := by
  obtain ⟨cs, ct, ex, ac, use, sig, rem, lis⟩ := n
  cases hq
  unfold NodeBase.setUseActivationCallback switched
  simp only
  split
  · exact ⟨_, rfl⟩
  · split
    · exact ⟨_, rfl⟩
    · exact ⟨_, rfl⟩

theorem setActive_some {flag : Bool} (hq : n.currentState = some q) {r : NodeBase Q T W × Option Bool}
    (h : n.setActive b fsm check flag = some r) : ∃ ct, r.1 = { switched fsm q n { n with active := flag } with ct } := by
  obtain ⟨cs, ct, ex, ac, use, sig, rem, lis⟩ := n
  cases hq
  unfold NodeBase.setActive at h
  unfold switched
  simp only at h
  split at h
  · rename_i hif
    cases h
    rw [if_pos hif]
    exact ⟨_, rfl⟩
  · rename_i hif
    rw [if_neg hif]
    split at h
    · rename_i hif
      rw [if_pos hif]
      obtain ⟨_, _, h⟩ := Option.bind_eq_some_iff.mp h
      cases h
      exact ⟨_, rfl⟩
    · rename_i hif
      rw [if_neg hif]
      cases h
      exact ⟨_, rfl⟩

variable [DecidableEq Q]

theorem Consistent.setCurrentState (h : n.Consistent fsm ren)
    (hleave : n.callbackDriven = true → n.currentState ≠ some q → ∀ e, n.signalingEvent = some e → e ∈ n.required fsm → ¬ ren)
    (henter : n.callbackDriven = true → n.currentState ≠ some q → ∀ e, n.signalingEvent = some e → e ∈ fsm.am q →
      n.signalingEventRemove = false ∧ e ∉ n.required fsm) : (n.setCurrentState fsm q).Consistent fsm ren := by
  by_cases hc : n.callbackDriven = true
  · have hcb : (n.useActivationCallback && n.active) = true := by
      rw [Bool.and_comm]
      exact hc
    unfold NodeBase.setCurrentState
    rw [if_pos hcb]
    by_cases hq : n.currentState = some q
    · rw [if_neg (not_not.mpr hq)]
      exact h.same rfl rfl rfl fun _ => rfl
    · rw [if_pos hq]
      cases hcur : n.currentState with
      | none =>
        refine (h.deregistered (required_none hcur)).add (henter hc hq) ?_ rfl rfl rfl
        exact required_of hc rfl
      | some q₀ =>
        refine (h.del (required_of hc hcur) (hleave hc hq)).add (henter hc hq) ?_ rfl rfl rfl
        exact required_of hc rfl
  · have hcb : ¬ (n.useActivationCallback && n.active) = true := by
      rw [Bool.and_comm]
      exact hc
    have hreq : n.required fsm = ∅ := required_inactive (Bool.eq_false_of_not_eq_true hc)
    unfold NodeBase.setCurrentState
    rw [if_neg hcb]
    exact (h.deregistered hreq).consistent (required_inactive (Bool.eq_false_of_not_eq_true hc)) rfl rfl rfl

theorem sameCall_setCurrentState : SameCall n (n.setCurrentState fsm q) := by
  unfold NodeBase.setCurrentState
  split
  · split
    · split
      · exact ⟨rfl, rfl⟩
      · exact ⟨rfl, rfl⟩
    · exact ⟨rfl, rfl⟩
  · exact ⟨rfl, rfl⟩

theorem Consistent.doReset (check : T → Bool) (h : (n.setCurrentState fsm fsm.initialState).Consistent fsm ren) :
    (n.doReset fsm check).1.Consistent fsm ren ∧ SameCall n (n.doReset fsm check).1 := by
  unfold NodeBase.doReset
  simp only
  split
  · exact ⟨h.same rfl rfl rfl fun _ => rfl, sameCall_setCurrentState⟩
  · exact ⟨h, sameCall_setCurrentState⟩

theorem Consistent.scheduleReturn (check : T → Bool) {t : T} (h : (n.setCurrentState fsm (fsm.destState t)).Consistent fsm ren) :
    (n.scheduleReturn fsm check t).Consistent fsm ren ∧ (n.scheduleReturn fsm check t).executing = false ∧
      (n.scheduleReturn fsm check t).signalingEvent = n.signalingEvent := by
  unfold NodeBase.scheduleReturn
  simp only
  split
  · exact ⟨h.same rfl rfl rfl fun _ => rfl, rfl, sameCall_setCurrentState.2⟩
  · exact ⟨h.same rfl rfl rfl fun _ => rfl, rfl, sameCall_setCurrentState.2⟩

end NodeBase

/-! ## Runs -/

namespace NodeRun

variable {Q T W : Type} {fsm : RuntimeFSM Q T W} {b : Build} {c c' : NodeRun Q T W} {n n' : NodeBase Q T W} {fs : List (Frame T W)}

/-- The calls that can be open, with `executing` and `signalingEvent`. -/
inductive Shape : List (Frame T W) → Bool → Option W → Prop
  | idle : Shape [] false none
  | signaling (e : W) (renotified called : Bool) : Shape [.delivering e renotified called] false (some e)
  | executing {fs : List (Frame T W)} {s : Option W} (t : T) : Shape fs false s → Shape (.executing t :: fs) true s
  | delivered {fs : List (Frame T W)} {s : Option W} (e : W) (renotified : Bool) (t : T) :
    Shape (.executing t :: fs) true s → Shape (.delivering e renotified false :: .executing t :: fs) true s

theorem shape_nil {x : Bool} {s : Option W} (h : Shape ([] : List (Frame T W)) x s) : x = false ∧ s = none := by
  cases h
  exact ⟨rfl, rfl⟩

theorem shape_executing {t : T} {x : Bool} {s : Option W} (h : Shape (.executing t :: fs) x s) : x = true ∧ Shape fs false s := by
  cases h with
  | executing _ h => exact ⟨rfl, h⟩

theorem shape_delivering {e : W} {renotified called x : Bool} {s : Option W}
    (h : Shape (.delivering e renotified called :: fs) x s) :
    (fs = [] ∧ x = false ∧ s = some e) ∨
      ∃ t fs', fs = .executing t :: fs' ∧ called = false ∧ x = true ∧ Shape fs true s := by
  cases h with
  | signaling => exact .inl ⟨rfl, rfl, rfl⟩
  | delivered _ _ t h => exact .inr ⟨t, _, rfl, rfl, rfl, h⟩

theorem Shape.delivering {x : Bool} {e : W} (h : Shape fs x (some e)) : ∃ e' renotified called,
    .delivering e' renotified called ∈ fs := by
  generalize hs : some e = s at h
  induction h with
  | idle => cases hs
  | signaling e' renotified called => exact ⟨e', renotified, called, List.mem_cons_self⟩
  | executing t _ ih =>
    obtain ⟨e', renotified, called, hmem⟩ := ih hs
    exact ⟨e', renotified, called, List.mem_cons_of_mem _ hmem⟩
  | delivered e' renotified => exact ⟨e', renotified, false, List.mem_cons_self⟩

theorem renotifying_executing (n n' : NodeBase Q T W) {t : T} : Renotifying (⟨n, .executing t :: fs⟩ : NodeRun Q T W) ↔
    Renotifying (⟨n', fs⟩ : NodeRun Q T W) := by
  unfold Renotifying
  cases fs with
  | nil => simp
  | cons f fs => simp

theorem renotifying_delivered (n n' : NodeBase Q T W) {e : W} {renotified : Bool} {t : T} :
    Renotifying (⟨n, .delivering e renotified false :: .executing t :: fs⟩ : NodeRun Q T W) ↔
      Renotifying (⟨n', .executing t :: fs⟩ : NodeRun Q T W) := by
  unfold Renotifying
  simp

variable [DecidableEq W]

/-- A delivery in the middle of an execution has an event that is to be removed only
where it is the one the node has left. -/
def TopDelivered (c : NodeRun Q T W) : Prop := ∀ e renotified called t fs,
  c.frames = .delivering e renotified called :: .executing t :: fs → c.node.signalingEventRemove = true →
    c.node.signalingEvent = some e ∧ renotified = false

structure Inv (fsm : RuntimeFSM Q T W) (c : NodeRun Q T W) : Prop where
  shape : Shape c.frames c.node.executing c.node.signalingEvent
  consistent : c.node.Consistent fsm c.Renotifying
  top : c.TopDelivered

theorem Inv.call (h : Inv fsm c) (hm : c.mayCall = true) (hn : n.Consistent fsm c.Renotifying) (hs : NodeBase.SameCall c.node n) :
    Inv fsm { c with node := n } where
  shape := by
    rw [hs.1, hs.2]
    exact h.shape
  consistent := hn
  top := by
    intro e renotified called t fs hfs
    have hshape := h.shape
    rw [mayCall] at hm
    simp only at hfs
    rw [hfs] at hshape hm
    rcases shape_delivering hshape with ⟨hnil, _⟩ | ⟨_, _, _, hcalled, _⟩
    · cases hnil
    · rw [hcalled] at hm
      cases hm

theorem Inv.schedule (h : Inv fsm c) (hx : c.node.executing = false) {t : T} :
    Inv fsm ⟨{ c.node with executing := true }, .executing t :: c.frames⟩ where
  shape := .executing t (hx ▸ h.shape)
  consistent := by
    rw [renotifying_executing _ c.node]
    exact h.consistent.same rfl rfl rfl fun _ => rfl
  top := by
    intro e renotified called t' fs hfs
    cases hfs

theorem Inv.deliver {check : T → Bool} {e : W} {isActive renotified : Bool} {sent : Option Bool} (h : Inv fsm c)
    (hm : c.mayDeliver = true)
    (hkeep : c.node.signalingEventRemove = true → c.node.signalingEvent = some e ∧ renotified = false)
    (hs : c.node.signaled b fsm check e isActive = some (n, sent)) : Inv fsm
        ⟨n, .delivering e renotified sent.isSome :: c.frames⟩ := by
  obtain ⟨node, frames⟩ := c
  cases frames with
  | nil =>
    obtain ⟨hx, hsig⟩ := shape_nil h.shape
    obtain ⟨ct, hn⟩ := NodeBase.signaled_idle hx hs
    cases hn
    have hr : node.signalingEventRemove = false := by
      cases hr : node.signalingEventRemove with
      | false => rfl
      | true =>
        obtain ⟨e', he', _⟩ := h.consistent.left hr
        rw [hsig] at he'
        cases he'
    refine ⟨?_, ⟨fun _ => h.consistent.kept hr, fun hr' => ?_⟩, fun e' r' k' t fs' hfs' => ?_⟩
    · simp only
      rw [hx]
      exact .signaling e renotified sent.isSome
    · simp only [hr] at hr'
      cases hr'
    · cases hfs'
  | cons f fs =>
    cases f with
    | delivering e' r' k' => cases hm
    | executing t =>
      have hshape := h.shape
      obtain ⟨hx, _⟩ := shape_executing hshape
      cases NodeBase.signaled_executing hx hs
      refine ⟨?_, ?_, fun e' r' k' t' fs' hfs' hr' => ?_⟩
      · simp only at hshape hx ⊢
        rw [hx] at hshape ⊢
        exact .delivered e renotified t hshape
      · rw [Option.isSome_none, renotifying_delivered _ node]
        exact h.consistent
      · cases hfs'
        exact hkeep hr'

theorem Inv.returned {e : W} {renotified called : Bool} (h : Inv fsm c) (hfs : c.frames = .delivering e renotified called :: fs)
    (hexec : n.executing = c.node.executing) (hsig : n.signalingEvent = if c.node.executing then c.node.signalingEvent else none)
    (hcons : n.Consistent fsm (Renotifying ⟨n, fs⟩)) : Inv fsm ⟨n, fs⟩ := by
  obtain ⟨node, frames⟩ := c
  cases hfs
  rcases shape_delivering h.shape with ⟨rfl, hx, _⟩ | ⟨t, fs', rfl, _, hx, hshape⟩
  · simp only at hx hexec hsig
    refine ⟨?_, hcons, fun e' r' k' t fs' hfs' => nomatch hfs'⟩
    simp only [hexec, hsig, hx]
    exact .idle
  · simp only at hx hexec hsig hshape
    refine ⟨?_, hcons, fun e' r' k' t fs' hfs' => nomatch hfs'⟩
    simp only [hexec, hsig, hx]
    exact hshape

/-- The event a delivery is about is the one that is to be removed. -/
theorem Inv.event {e : W} {renotified called : Bool} (h : Inv fsm c) (hfs : c.frames = .delivering e renotified called :: fs)
    (hr : c.node.signalingEventRemove = true) : c.node.signalingEvent = some e ∧ renotified = false := by
  obtain ⟨node, frames⟩ := c
  cases hfs
  obtain ⟨e', he', hren, _⟩ := h.consistent.left hr
  rcases shape_delivering h.shape with ⟨rfl, _, hsig⟩ | ⟨t, fs', rfl, _⟩
  · refine ⟨hsig, ?_⟩
    cases renotified with
    | false => rfl
    | true => exact absurd ⟨e, called, rfl⟩ hren
  · exact h.top e renotified called t fs' rfl hr

theorem Inv.deliverReturn {e : W} {called : Bool} (h : Inv fsm c) (hfs : c.frames = .delivering e false called :: fs)
    {remove : Bool}
    (hs : c.node.signaledReturn b e = some (n, remove)) :
    Inv fsm ⟨{ n with listening := if remove then n.listening.erase e else n.listening }, fs⟩ := by
  cases NodeBase.signaledReturn_eq hs
  refine h.returned hfs rfl rfl ?_
  exact .of_required (h.consistent.settled fun hr => (h.event hfs hr).1) rfl

/-- A renotified event has not been left. -/
theorem Inv.renotifiedReturn {e : W} {called : Bool} (h : Inv fsm c) (hfs : c.frames = .delivering e true called :: fs)
    {remove : Bool}
    (hs : c.node.signaledReturn b e = some (n, remove)) : Inv fsm ⟨n, fs⟩ := by
  cases NodeBase.signaledReturn_eq hs
  refine h.returned hfs rfl rfl (.of_required ?_ rfl)
  refine h.consistent.kept ?_
  cases hr : c.node.signalingEventRemove with
  | false => rfl
  | true => cases (h.event hfs hr).2

theorem inv_new : Inv fsm (new Q T W) where
  shape := .idle
  consistent := .of_required (by rw [NodeBase.required_none rfl]; rfl) rfl
  top := fun _ _ _ _ _ h => nomatch h

theorem Inv.switch {q : Q} (h : Inv fsm c) (n₁ : NodeBase Q T W) (hm : c.mayCall = true) (hq : c.node.currentState = some q)
    (hcur : n₁.currentState = c.node.currentState) (hl : n₁.listening = c.node.listening)
    (hr : n₁.signalingEventRemove = c.node.signalingEventRemove) (hs : NodeBase.SameCall c.node n₁)
    (hkeep : c.MaySwitch fsm n₁.callbackDriven) (ct : Option T) :
    Inv fsm { c with node := { NodeBase.switched fsm q c.node n₁ with ct } } := by
  have hswitch := h.consistent.switch hq hcur hl hr hs.2 (fun hc hc₁ => ?_) fun hc hc₁ => ?_
  · refine h.call hm (hswitch.same rfl rfl rfl fun _ => rfl) ?_
    exact ⟨NodeBase.switched_same.1.trans hs.1, NodeBase.switched_same.2.trans hs.2⟩
  · have := hkeep q hq (by rw [hc, hc₁]; exact Bool.noConfusion)
    rwa [if_neg (by simp [hc₁])] at this
  · have := hkeep q hq (by rw [hc, hc₁]; exact Bool.noConfusion)
    rwa [if_pos hc₁] at this

theorem Inv.setFlags (h : Inv fsm c) (hm : c.mayCall = true) (hq : c.node.currentState = none) (active use : Bool) :
    Inv fsm { c with node := { c.node with active, useActivationCallback := use } } := by
  refine h.call hm (h.consistent.same ?_ rfl rfl fun _ => rfl) ⟨rfl, rfl⟩
  exact (NodeBase.required_none (n := { c.node with active, useActivationCallback := use }) hq).trans
      (NodeBase.required_none hq).symm

variable [DecidableEq Q]

theorem Inv.scheduleReturn {check : T → Bool} {t : T} (h : Inv fsm c) (hfs : c.frames = .executing t :: fs)
    (hmove : c.MayMove fsm (fsm.destState t)) : Inv fsm ⟨c.node.scheduleReturn fsm check t, fs⟩ := by
  obtain ⟨hcons, hx, hsig⟩ := NodeBase.Consistent.scheduleReturn check
    (h.consistent.setCurrentState (fun hc hq => (hmove hc hq).1) fun hc hq => (hmove hc hq).2)
  obtain ⟨node, frames⟩ := c
  cases hfs
  have hbelow := (shape_executing h.shape).2
  refine ⟨?_, ?_, fun e renotified called t' fs' hfs' => ?_⟩
  · simp only
    rw [hx, hsig]
    exact hbelow
  · rw [renotifying_executing _ (node.scheduleReturn fsm check t)] at hcons
    exact hcons
  · simp only at hfs'
    rw [hfs'] at hbelow
    rcases shape_delivering hbelow with ⟨hnil, _⟩ | ⟨_, _, _, _, hf, _⟩
    · cases hnil
    · cases hf

theorem Inv.step (h : Inv fsm c) {call : NodeCall T W} (hkeep : c.Keeps fsm call) (hs : c.step b fsm call = some c') :
    Inv fsm c' := by
  cases call with
  | doReset check =>
    simp only [NodeRun.step] at hs
    split at hs
    · rename_i hm
      cases hs
      obtain ⟨hcons, hsame⟩ := NodeBase.Consistent.doReset check
        (h.consistent.setCurrentState (fun hc hq => (hkeep hc hq).1) fun hc hq => (hkeep hc hq).2)
      exact h.call hm hcons hsame
    · cases hs
  | setUseActivationCallback check flag =>
    simp only [NodeRun.step] at hs
    split at hs
    · rename_i hm
      cases hs
      cases hq : c.node.currentState with
      | none =>
        rw [NodeBase.setUseActivationCallback_none hq]
        exact h.setFlags hm hq c.node.active flag
      | some q =>
        obtain ⟨ct, hct⟩ := NodeBase.setUseActivationCallback_some fsm check flag hq
        rw [hct]
        exact h.switch { c.node with useActivationCallback := flag } hm hq rfl rfl rfl ⟨rfl, rfl⟩ hkeep ct
    · cases hs
  | setActive check flag =>
    simp only [NodeRun.step] at hs
    split at hs
    · rename_i hm
      obtain ⟨r, hr, hs⟩ := Option.bind_eq_some_iff.mp hs
      cases hs
      cases hq : c.node.currentState with
      | none =>
        rw [NodeBase.setActive_none hq hr]
        exact h.setFlags hm hq flag c.node.useActivationCallback
      | some q =>
        obtain ⟨ct, hct⟩ := NodeBase.setActive_some hq hr
        rw [hct]
        exact h.switch { c.node with active := flag } hm hq rfl rfl rfl ⟨rfl, rfl⟩ hkeep ct
    · cases hs
  | schedule check =>
    simp only [NodeRun.step] at hs
    split at hs
    · rename_i hm
      simp only [Bool.and_eq_true, Bool.not_eq_true'] at hm
      obtain ⟨r, hr, hs⟩ := Option.bind_eq_some_iff.mp hs
      cases hs
      rw [NodeBase.schedule_eq hr]
      exact h.schedule hm.2
    · cases hs
  | scheduleReturn check =>
    simp only [NodeRun.step] at hs
    split at hs
    · rename_i t fs hfs
      cases hs
      exact h.scheduleReturn hfs (hkeep t fs hfs)
    · cases hs
  | deliver check e isActive renotified =>
    simp only [NodeRun.step] at hs
    split at hs
    · rename_i hm
      obtain ⟨r, hr, hs⟩ := Option.bind_eq_some_iff.mp hs
      cases hs
      simp only [Bool.and_eq_true] at hm
      exact h.deliver hm.1.1 hkeep hr
    · cases hs
  | deliverReturn =>
    simp only [NodeRun.step] at hs
    split at hs
    · rename_i e renotified called fs hfs
      obtain ⟨r, hr, hs⟩ := Option.bind_eq_some_iff.mp hs
      cases renotified with
      | true =>
        obtain ⟨_, _, hs⟩ := Option.bind_eq_some_iff.mp hs
        cases hs
        exact h.renotifiedReturn hfs hr
      | false =>
        cases hs
        exact h.deliverReturn hfs hr
    · cases hs

theorem inv_run (h : Relation.ReflTransGen (KeepingStep b fsm) (new Q T W) c) : Inv fsm c := by
  induction h with
  | refl => exact inv_new
  | tail _ hstep ih =>
    obtain ⟨call, hkeep, hs⟩ := hstep
    exact ih.step hkeep hs

/-- Outside of deliveries the node is registered at the waiters of its runtime state,
in every run whose calls do not move it at the wrong moment. -/
theorem run_registered (b : Build) (fsm : RuntimeFSM Q T W) (c : NodeRun Q T W)
    (h : Relation.ReflTransGen (KeepingStep b fsm) (new Q T W) c) (hd : ¬ c.Delivering) : c.node.Registered fsm := by
  have hinv := inv_run h
  have hr : c.node.signalingEventRemove = false := by
    cases hr : c.node.signalingEventRemove with
    | false => rfl
    | true =>
      obtain ⟨e, he, _⟩ := hinv.consistent.left hr
      have hshape := hinv.shape
      rw [he] at hshape
      exact absurd hshape.delivering hd
  exact ⟨hinv.consistent.kept hr, hr⟩

def pingPong {W : Type} (waiter : Bool → W) : RuntimeFSM Bool Bool W where
  initialState := false
  transitions q := [q]
  ioPatternWaiter := waiter
  destState t := !t

/-- The node leaves its state while it is told of the event. -/
theorem run_registered_left : ∃ c : NodeRun Bool Bool Bool, c.node.currentState = some true ∧ c.node.Registered (pingPong id) := by
  have h₃ : Relation.ReflTransGen (KeepingStep Build.checked (pingPong id)) (new Bool Bool Bool) _ :=
    .single ⟨.doReset fun _ => false, (fun _ _ => ⟨(fun e he => nomatch he), fun e he => nomatch he⟩), rfl⟩
  have h₄ := h₃.tail ⟨.deliver (fun _ => true) false true false, (fun hr => nomatch hr), rfl⟩
  have h₅ := h₄.tail ⟨.schedule fun _ => true, trivial, rfl⟩
  have h₆ := h₅.tail ⟨.scheduleReturn fun _ => false, (by
    intro t fs hfs _ _
    cases hfs
    refine ⟨?_, ?_⟩
    · rintro e he _ ⟨e', called, hlast⟩
      cases hlast
    · intro e he hmem
      cases he
      cases List.mem_toFinset.mp hmem with
      | tail _ h => cases h), rfl⟩
  have h₇ := h₆.tail ⟨.deliverReturn, trivial, rfl⟩
  refine ⟨_, rfl, run_registered Build.checked (pingPong id) _ h₇ ?_⟩
  rintro ⟨_, _, _, hmem⟩
  cases hmem

/-- The states share the event: the node enters the second one with it, then the
removal that was put off takes it away. -/
theorem registration_lost : ∃ c : NodeRun Bool Bool Unit,
    [.doReset (fun _ => false), .deliver (fun _ => true) () true false, .schedule (fun _ => true), .scheduleReturn (fun _ => false),
      .deliverReturn].foldlM (step Build.checked (pingPong fun _ => ())) (new Bool Bool Unit) = some c ∧
    ¬ c.Delivering ∧ ¬ c.node.Registered (pingPong fun _ => ()) := by
  refine ⟨_, rfl, ?_, fun h => ?_⟩
  · rintro ⟨_, _, _, hmem⟩
    cases hmem
  · have := h.1
    revert this
    decide

end NodeRun

end SysteMoC
