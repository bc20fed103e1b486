import Mathlib.Data.Finset.Basic
import SysteMoC.Queue

/-!
# Nodes

`NodeBase` with the cached transition `ct`, the flags it is scheduled by and the
event waiters it listens to. A call of `notifyActivation` is what a function
returns beside the node.
-/

namespace SysteMoC

/-- The loop of `searchActiveTransition`. -/
def searchActiveTransition {α : Type} (check : α → Bool) : List α → Option α
  | [] => none
  | t :: tl => if check t then some t else searchActiveTransition check tl

theorem searchActiveTransition_eq {α : Type} (check : α → Bool) (tl : List α) :
    searchActiveTransition check tl = tl.find? check := by
  induction tl with
  | nil => rfl
  | cons t tl ih =>
    rw [searchActiveTransition, List.find?_cons, ih]
    cases check t <;> rfl

/-- The runtime states and transitions; transitions of different states may have the
same waiter. -/
structure RuntimeFSM (Q T W : Type) where
  initialState : Q
  transitions : Q → List T
  ioPatternWaiter : T → W
  destState : T → Q

/-- What `end_of_elaboration` collects for a runtime state. -/
def RuntimeFSM.am {Q T W : Type} [DecidableEq W] (fsm : RuntimeFSM Q T W) (q : Q) : Finset W :=
  ((fsm.transitions q).map fsm.ioPatternWaiter).toFinset

/-- `listening` are the waiters that have the node as a listener. -/
structure NodeBase (Q T W : Type) where
  currentState : Option Q
  ct : Option T
  executing : Bool
  active : Bool
  useActivationCallback : Bool
  signalingEvent : Option W
  signalingEventRemove : Bool
  listening : Finset W

namespace NodeBase

variable {Q T W : Type} [DecidableEq Q] [DecidableEq W]

def new (Q T W : Type) : NodeBase Q T W where
  currentState := none
  ct := none
  executing := false
  active := true
  useActivationCallback := true
  signalingEvent := none
  signalingEventRemove := false
  listening := ∅

def callbackDriven (n : NodeBase Q T W) : Bool := n.active && n.useActivationCallback

def addMySelfAsListener (fsm : RuntimeFSM Q T W) (q : Q) (n : NodeBase Q T W) : NodeBase Q T W :=
  { n with listening := n.listening ∪ fsm.am q }

/-- The event that is being signalled keeps its listener for now. -/
def delMySelfAsListener (fsm : RuntimeFSM Q T W) (q : Q) (n : NodeBase Q T W) : NodeBase Q T W :=
  { n with
    signalingEventRemove := n.signalingEventRemove || decide (∃ w ∈ fsm.am q, n.signalingEvent = some w)
    listening := n.listening \ (fsm.am q).filter fun w => n.signalingEvent ≠ some w }

def setCurrentState (fsm : RuntimeFSM Q T W) (newState : Q) (n : NodeBase Q T W) : NodeBase Q T W :=
  let n :=
    if n.useActivationCallback && n.active then
      if n.currentState ≠ some newState then
        let n := match n.currentState with
          | some q => n.delMySelfAsListener fsm q
          | none => n
        { n with currentState := some newState }.addMySelfAsListener fsm newState
      else n
    else { n with currentState := some newState }
  { n with ct := none }

def searchActiveTransition (fsm : RuntimeFSM Q T W) (check : T → Bool) (n : NodeBase Q T W) : NodeBase Q T W :=
  { n with ct := n.currentState.bind fun q => SysteMoC.searchActiveTransition check (fsm.transitions q) }

def doReset (fsm : RuntimeFSM Q T W) (check : T → Bool) (n : NodeBase Q T W) : NodeBase Q T W × Option Bool :=
  let n := n.setCurrentState fsm fsm.initialState
  if n.useActivationCallback && n.active then
    let n := n.searchActiveTransition fsm check
    (n, some n.ct.isSome)
  else (n, none)

def setUseActivationCallback (fsm : RuntimeFSM Q T W) (check : T → Bool) (flag : Bool) (n : NodeBase Q T W) :
    NodeBase Q T W × Option Bool :=
  match n.currentState with
  | none => ({ n with useActivationCallback := flag }, none)
  | some q =>
    let oldState := n.callbackDriven
    let n := { n with useActivationCallback := flag }
    let newState := n.callbackDriven
    if oldState && !newState then (n.delMySelfAsListener fsm q, some false)
    else if !oldState && newState then
      let n := (n.addMySelfAsListener fsm q).searchActiveTransition fsm check
      (n, some n.ct.isSome)
    else (n, none)

def setActive (b : Build) (fsm : RuntimeFSM Q T W) (check : T → Bool) (flag : Bool) (n : NodeBase Q T W) :
    Option (NodeBase Q T W × Option Bool) :=
  match n.currentState with
  | none => some ({ n with active := flag }, none)
  | some q =>
    let oldState := n.callbackDriven
    let n := { n with active := flag }
    let newState := n.callbackDriven
    if oldState && !newState then
      some (n.delMySelfAsListener fsm q, if !n.executing then some false else none)
    else if !oldState && newState then do
      let n := n.addMySelfAsListener fsm q
      b.assert (n.executing = false)
      let n := n.searchActiveTransition fsm check
      return (n, some n.ct.isSome)
    else some (n, none)

def signaled (b : Build) (fsm : RuntimeFSM Q T W) (check : T → Bool) (e : W) (isActive : Bool) (n : NodeBase Q T W) :
    Option (NodeBase Q T W × Option Bool) := do
  b.assert (n.callbackDriven = true)
  if !n.executing then do
    b.assert (n.signalingEvent = none)
    b.assert (n.signalingEventRemove = false)
    let n := { n with signalingEvent := some e }
    if isActive then do
      let oldct := n.ct
      let n := n.searchActiveTransition fsm check
      b.debugAssert (¬ (oldct.isSome ∧ n.ct.isNone))
      return (n, if n.ct.isSome then some true else none)
    else if n.ct.isSome then
      let n := n.searchActiveTransition fsm check
      return (n, if n.ct.isNone then some false else none)
    else return (n, none)
  else return (n, none)

def signaledReturn (b : Build) (e : W) (n : NodeBase Q T W) : Option (NodeBase Q T W × Bool) := do
  if !n.executing then b.assert (n.signalingEvent = some e)
  let n := if !n.executing then { n with signalingEvent := none } else n
  return ({ n with signalingEventRemove := false }, n.signalingEventRemove)

def schedule (b : Build) (check : T → Bool) (n : NodeBase Q T W) : Option (NodeBase Q T W × T) := do
  let t ← n.ct
  b.assert (check t = true)
  b.assert (n.executing = false)
  return ({ n with executing := true }, t)

def scheduleReturn (fsm : RuntimeFSM Q T W) (check : T → Bool) (t : T) (n : NodeBase Q T W) : NodeBase Q T W :=
  let n := { n.setCurrentState fsm (fsm.destState t) with executing := false }
  if n.useActivationCallback then n.searchActiveTransition fsm check else n

def canFire (fsm : RuntimeFSM Q T W) (check : T → Bool) (n : NodeBase Q T W) : NodeBase Q T W × Bool :=
  if n.active then
    let n := if !n.useActivationCallback then n.searchActiveTransition fsm check else n
    (n, n.ct.isSome)
  else (n, false)

end NodeBase

end SysteMoC
