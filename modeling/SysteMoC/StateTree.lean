import Mathlib
import SysteMoC.Queue

/-!
# Hierarchical states

The tree of XOR, AND and firing states with the ancestor codes, the marking of
destination states, the states entered by default and the search for the state
a transition leaves.
-/

namespace SysteMoC

inductive StateTree where
  | firing
  | xor (n : Nat) (init : Option (Fin n)) (child : Fin n → StateTree)
  | and (n : Nat) (child : Fin n → StateTree)

/-- The child positions from a state up to the top state, which is `[]`. -/
abbrev StatePath := List Nat

/-- A set of firing states. -/
abbrev ProdState := Finset StatePath

inductive FsmError where
  | modelingError (what : String)
  | assertion
deriving DecidableEq, Repr

def Build.require (b : Build) (p : Prop) [Decidable p] : Except FsmError Unit :=
  match b.assert p with
  | some _ => .ok ()
  | none => .error .assertion

/-- `CoSupport::Math::flog2c`: the logarithm rounded up. -/
def flog2c (n : Nat) : Nat := Nat.clog 2 n

namespace StateTree

def numChildren : StateTree → Nat
  | firing => 0
  | xor n _ _ => n
  | and n _ => n

def child? : StateTree → Nat → Option StateTree
  | firing, _ => none
  | xor n _ c, i => if h : i < n then some (c ⟨i, h⟩) else none
  | and n c, i => if h : i < n then some (c ⟨i, h⟩) else none

def sub (t : StateTree) : StatePath → Option StateTree
  | [] => some t
  | i :: p => (t.sub p).bind (·.child? i)

/-! ## Ancestor codes -/

def codeBits (t : StateTree) : StatePath → Nat × Nat
  | [] => (0, 1)
  | i :: p =>
    let cb := flog2c (((t.sub p).map numChildren).getD 0)
    (((t.codeBits p).1 * 2 ^ cb + i) % 2 ^ 64, (t.codeBits p).2 + cb)

def code (t : StateTree) (p : StatePath) : Nat := (t.codeBits p).1

def bits (t : StateTree) (p : StatePath) : Nat := (t.codeBits p).2

def isAncestor (t : StateTree) (a s : StatePath) : Bool :=
  if s = a then true
  else if t.bits s > t.bits a then t.code a == t.code s >>> (t.bits s - t.bits a)
  else false

/-- The checks of `finalise`. -/
def finalise (b : Build) : StateTree → Nat → Except FsmError Unit
  | firing, _ => .ok ()
  | xor n init c, bits =>
    if init.isNone then .error (.modelingError "smoc_xor_state: Must specify initial state") else do
      b.require (n = 0 ∨ bits + flog2c n < 64)
      (List.finRange n).forM fun i => (c i).finalise b (bits + flog2c n)
  | and n c, bits => do
    b.require (n = 0 ∨ bits + flog2c n < 64)
    (List.finRange n).forM fun i => (c i).finalise b (bits + flog2c n)

/-! ## Entering states -/

/-- `mark` stops at a state that is marked already. -/
def mark : StatePath → Finset StatePath → Finset StatePath
  | [], m => insert [] m
  | i :: p, m => if i :: p ∈ m then m else mark p (insert (i :: p) m)

def markStates (d : List StatePath) : Finset StatePath := d.foldl (fun m p => mark p m) ∅

/-- The loop of `XORStateImpl::getInitialState` over its children. -/
def markedChild {n : Nat} (m : Finset StatePath) (p : StatePath) :
    List (Fin n) → Option (Fin n) → Except FsmError (Option (Fin n))
  | [], t => .ok t
  | i :: l, t =>
    if i.val :: p ∈ m then
      if t.isSome then .error (.modelingError "smoc_xor_state: Must specify single initial state")
      else markedChild m p l (some i)
    else markedChild m p l t

def getInitialState (m : Finset StatePath) : StateTree → StatePath → Except FsmError ProdState
  | firing, p => .ok {p}
  | xor n init c, p => do
    let t ← markedChild m p (List.finRange n) none
    match t.or init with
    | some i => (c i).getInitialState m (i.val :: p)
    | none => .error .assertion
  | and n c, p => (List.finRange n).foldlM (fun s i => do return s ∪ (← (c i).getInitialState m (i.val :: p))) ∅

/-! ## Leaving states -/

/-- What `getTopState` of a state answers without asking the parent. -/
def topHere (t : StateTree) (d : List StatePath) (p : StatePath) (isSrcState : Bool) :
    Option (Except FsmError StatePath) :=
  match t.sub p with
  | none => some (.error .assertion)
  | some firing => if d.all (· = p) then some (.ok p) else none
  | some (xor _ _ _) => if d.all (t.isAncestor p) then some (.ok p) else none
  | some (and _ _) =>
    if d.all (t.isAncestor p) then
      if isSrcState || d.any (· = p) then some (.ok p)
      else some (.error (.modelingError "smoc_and_state: Can't create inter-partition transitions"))
    else none

def getTopState (t : StateTree) (d : List StatePath) : StatePath → Bool → Except FsmError StatePath
  | [], isSrcState => (t.topHere d [] isSrcState).getD (.error .assertion)
  | i :: p, isSrcState => (t.topHere d (i :: p) isSrcState).getD (t.getTopState d p false)

end StateTree

end SysteMoC
