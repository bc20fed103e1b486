import Mathlib.Data.Finset.Lattice.Basic
import SysteMoC.StateTree
import SysteMoC.Worklist

/-!
# Flattening of firing FSMs

`FiringFSM::before_end_of_elaboration`: product states and runtime transitions
from the tree of states and the list of expanded transitions.
-/

namespace SysteMoC

/-- A condition state comes with `true` where it is negated. -/
structure ExpandedTransition (R : Type) where
  src : StatePath
  conds : List (StatePath × Bool)
  rule : R
  dest : List StatePath

namespace FiringFSM

variable {R : Type}

def isImplied (t : StateTree) (q : StatePath) (s : ProdState) : Bool := decide (∃ l ∈ s, t.isAncestor q l = true)

def condsImplied (t : StateTree) (c : List (StatePath × Bool)) (s : ProdState) : Bool :=
  c.all fun e => if isImplied t e.1 s then !e.2 else e.2

def target (b : Build) (t : StateTree) (tr : ExpandedTransition R) (s : ProdState) : Except FsmError ProdState := do
  let x ← t.getTopState tr.dest tr.src true
  match t.sub x with
  | none => .error .assertion
  | some u => do
    let d ← u.getInitialState (StateTree.markStates tr.dest) x
    let rest := s.filter fun l => t.isAncestor x l = false
    b.require (Disjoint d rest)
    return d ∪ rest

def transitionsOf (b : Build) (t : StateTree) (s : ProdState) :
    List (ExpandedTransition R) → Except FsmError (List (R × ProdState))
  | [] => .ok []
  | tr :: etl =>
    if isImplied t tr.src s && condsImplied t tr.conds s then do
      let d ← target b t tr s
      return (tr.rule, d) :: (← transitionsOf b t s etl)
    else transitionsOf b t s etl

/-- The states of the top level move into a new top state. -/
def top {n : Nat} (states : Fin n → StateTree) (hsinit : Fin n) : StateTree := .xor n (some hsinit) states

/-- The table of product states with their transitions; `none` where the fuel
runs out. -/
def beforeEndOfElaboration (b : Build) {n : Nat} (states : Fin n → StateTree) (hsinit : Option (Fin n))
    (etl : List (ExpandedTransition R)) (fuel : Nat) : Option (Except FsmError (List (ProdState × List (R × ProdState)))) :=
  match hsinit with
  | none => some (.error (.modelingError "smoc_firing_fsm: Initial state must be on top hierarchy level"))
  | some i =>
    match (do (top states i).finalise b 1; (top states i).getInitialState ∅ [] : Except FsmError ProdState) with
    | .error e => some (.error e)
    | .ok psinit => Worklist.run (transitionsOf b (top states i) · etl) fuel psinit

end FiringFSM

end SysteMoC
