import SysteMoC.FiringFSM
import SysteMoC.Fuel
import SysteMoC.Guard

/-!
# Elaboration of firing FSMs

`FiringFSM::before_end_of_elaboration` from the states with their transitions:
the expansion of transitions through junction states and multi-states, in the
order of `finalise`, and the runtime states.
-/

namespace SysteMoC

/-- Rules with the rule of one transition after another. -/
class JoinRules (R : Type) where
  join : R → R → R

instance {I O S A : Type} : JoinRules (FiringRule I O S A) :=
  ⟨fun acc pt => ⟨.land acc.guard pt.guard, merge acc.action pt.action⟩⟩

inductive BaseState (J M : Nat) where
  | state (q : StatePath)
  | junction (j : Fin J)
  | multi (k : Fin M)
deriving DecidableEq

structure PartialTransition (R : Type) (J M : Nat) where
  rule : R
  destState : BaseState J M

structure MultiState (R : Type) (J M : Nat) where
  ptl : List (PartialTransition R J M)
  states : List StatePath
  nodup : states.Nodup
  condStates : List (StatePath × Bool)

/-- The states of an FSM: those that are on top, in the order of the set, the
transitions of a state by its path below the new top state, the junction states
and the multi-states in the order of the set. -/
structure FsmModel (R : Type) where
  n : Nat
  states : Fin n → StateTree
  hsinit : Option (Fin n)
  J : Nat
  M : Nat
  ptl : StatePath → List (PartialTransition R J M)
  junction : Fin J → List (PartialTransition R J M)
  multi : Fin M → MultiState R J M

namespace FsmModel

variable {R : Type} [JoinRules R] (m : FsmModel R)

/-- `expandTransition`; a junction state passes the transition on to the destinations
of its own ones, which takes fuel. -/
def expandTransition (srcState : StatePath) (conditions : List (StatePath × Bool)) :
    Nat → R → BaseState m.J m.M → Fuel.Result FsmError (List (ExpandedTransition R))
  | _, accFiringRule, .state q => return [⟨srcState, conditions, accFiringRule, [q]⟩]
  | _, accFiringRule, .multi k =>
    if (m.multi k).states = [] then
      throw (.modelingError "smoc_multi_state: Destination multi-state must specify at least one target state!")
    else if (m.multi k).condStates ≠ [] then
      throw (.modelingError "smoc_multi_state: Destination multi-state must not specify any condition states!")
    else return [⟨srcState, conditions, accFiringRule, (m.multi k).states⟩]
  | 0, _, .junction _ => none
  | fuel + 1, accFiringRule, .junction j =>
    if m.junction j = [] then throw (.modelingError "smoc_junction_state: Must specify at least one transition")
    else (m.junction j).flatMapM fun pt =>
      expandTransition srcState conditions fuel (JoinRules.join accFiringRule pt.rule) pt.destState

def expandAll (srcState : StatePath) (conditions : List (StatePath × Bool)) (ptl : List (PartialTransition R m.J m.M))
    (fuel : Nat) : Fuel.Result FsmError (List (ExpandedTransition R)) :=
  ptl.flatMapM fun pt => m.expandTransition srcState conditions fuel pt.rule pt.destState

/-- The new top state has no transitions. -/
def ptlAt (p : StatePath) : List (PartialTransition R m.J m.M) := if p = [] then [] else m.ptl p

/-- `StateImpl::finalise`: the children, then the transitions of the state itself. -/
def finaliseState (b : Build) (n : Nat) (p : StatePath) (bits fuel : Nat)
    (child : Fin n → Fuel.Result FsmError (List (ExpandedTransition R))) : Fuel.Result FsmError (List (ExpandedTransition R)) := do
  Fuel.lift (b.require (n = 0 ∨ bits + flog2c n < 64))
  let etl ← (List.finRange n).flatMapM child
  return etl ++ (← m.expandAll p [] (m.ptlAt p) fuel)

def finalise (b : Build) : StateTree → StatePath → Nat → Nat → Fuel.Result FsmError (List (ExpandedTransition R))
  | .firing, p, bits, fuel => m.finaliseState b 0 p bits fuel Fin.elim0
  | .xor n init c, p, bits, fuel =>
    if init.isNone then throw (.modelingError "smoc_xor_state: Must specify initial state")
    else m.finaliseState b n p bits fuel fun i => finalise b (c i) (i.val :: p) (bits + flog2c n) fuel
  | .and n c, p, bits, fuel => m.finaliseState b n p bits fuel fun i => finalise b (c i) (i.val :: p) (bits + flog2c n) fuel

/-- `MultiStateImpl::finalise` -/
def finaliseMulti (k : Fin m.M) (fuel : Nat) : Fuel.Result FsmError (List (ExpandedTransition R)) :=
  if (m.multi k).ptl = [] then return []
  else match (m.multi k).states with
    | [s] => m.expandAll s (m.multi k).condStates (m.multi k).ptl fuel
    | _ => throw (.modelingError "smoc_multi_state: Source multi-state must specify exactly one source state!")

def expandedTransitions (b : Build) (hsinit : Fin m.n) (fuel : Nat) : Fuel.Result FsmError (List (ExpandedTransition R)) := do
  let etl ← (List.finRange m.M).flatMapM fun k => m.finaliseMulti k fuel
  return etl ++ (← m.finalise b (FiringFSM.top m.states hsinit) [] 1 fuel)

def beforeEndOfElaboration (b : Build) (fuel : Nat) :
    Fuel.Result FsmError (List (ProdState × List (R × ProdState))) :=
  match m.hsinit with
  | none => throw (.modelingError "smoc_firing_fsm: Initial state must be on top hierarchy level")
  | some i => do
    let etl ← m.expandedTransitions b i fuel
    let psinit ← Fuel.lift ((FiringFSM.top m.states i).getInitialState ∅ [])
    Worklist.run (FiringFSM.transitionsOf b (FiringFSM.top m.states i) · etl) fuel psinit

end FsmModel

end SysteMoC
