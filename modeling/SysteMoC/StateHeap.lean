import Mathlib.Data.Finset.Sort
import Mathlib.Logic.Relation
import SysteMoC.Queue

/-!
# States and firing FSMs as objects

The objects behind the state classes and the `FiringFSM`s that own them while a
model is built. An address that is not in use maps to `none`; reading through it
ends the operation, as does a failed assertion. Recursion along the containment
of states takes fuel.
-/

namespace SysteMoC

inductive StateKind where
  | firing
  | xor
  | and
  | junction
  | multi
deriving DecidableEq, Repr

/-- The classes derived from `StateImpl`. -/
def StateKind.IsStateImpl : StateKind → Prop
  | firing | xor | and => True
  | junction | multi => False

structure StateObject (R : Type) where
  kind : StateKind
  fsm : Nat
  ptl : List (R × Nat)
  /-- Of a `StateImpl`. -/
  parent : Option Nat
  c : List Nat
  /-- Of an `XORStateImpl`. -/
  init : Option Nat
  /-- Of a `MultiStateImpl`. -/
  states : Finset Nat
  condStates : List (Nat × Bool)

/-- `d` is the destination of a transition of the state or a member of the multi-state. -/
def StateObject.LeadsTo {R : Type} (o : StateObject R) (d : Nat) : Prop :=
  d ∈ o.ptl.map Prod.snd ∨ d ∈ o.states ∨ d ∈ o.condStates.map Prod.fst

structure FsmObject (H : Type) where
  states : Finset Nat
  useCount : Nat
  transitionHooks : List H

@[ext] structure StateHeap (R H : Type) where
  state : Nat → Option (StateObject R)
  fsm : Nat → Option (FsmObject H)
  /-- No object is at this address or a later one. -/
  next : Nat
  /-- The outstanding smart pointers to states. -/
  ptrs : List Nat

namespace StateHeap

variable {R H : Type}

def empty : StateHeap R H := ⟨fun _ => none, fun _ => none, 0, []⟩

def putState (h : StateHeap R H) (s : Nat) (o : Option (StateObject R)) : StateHeap R H :=
  { h with state := Function.update h.state s o }

def putFsm (h : StateHeap R H) (f : Nat) (o : Option (FsmObject H)) : StateHeap R H :=
  { h with fsm := Function.update h.fsm f o }

section
variable (h : StateHeap R H) (x : Nat) (o : Option (StateObject R)) (g : Option (FsmObject H))

@[simp] theorem putState_state : (h.putState x o).state = Function.update h.state x o := rfl
@[simp] theorem putState_fsm : (h.putState x o).fsm = h.fsm := rfl
@[simp] theorem putState_next : (h.putState x o).next = h.next := rfl
@[simp] theorem putState_ptrs : (h.putState x o).ptrs = h.ptrs := rfl
@[simp] theorem putFsm_state : (h.putFsm x g).state = h.state := rfl
@[simp] theorem putFsm_fsm : (h.putFsm x g).fsm = Function.update h.fsm x g := rfl
@[simp] theorem putFsm_next : (h.putFsm x g).next = h.next := rfl
@[simp] theorem putFsm_ptrs : (h.putFsm x g).ptrs = h.ptrs := rfl

end

/-! ## Merging and deleting -/

def setFiringFSM (f : Nat) : Nat → Nat → StateHeap R H → Option (StateHeap R H)
  | 0, _, _ => none
  | fuel + 1, s, h => do
    let o ← h.state s
    o.c.foldlM (fun h c => setFiringFSM f fuel c h) (h.putState s (some { o with fsm := f }))

/-- The loop of `unify` over the states of `fr`. -/
def moveStates (b : Build) (fuel this fr : Nat) : List Nat → StateHeap R H → Option (StateHeap R H)
  | [], h => some h
  | s :: l, h => do
    let o ← h.state s
    b.assert (o.fsm = fr)
    let h ← setFiringFSM this fuel s h
    let g ← h.fsm this
    b.assert (s ∉ g.states)
    moveStates b fuel this fr l (h.putFsm this (some { g with states := insert s g.states }))

/-- `~StateImpl` -/
def deleteState (b : Build) : Nat → Nat → StateHeap R H → Option (StateHeap R H)
  | 0, _, _ => none
  | fuel + 1, s, h => do
    let o ← h.state s
    let h ← o.c.foldlM (fun h c => do
      let oc ← h.state c
      b.assert (oc.fsm = o.fsm)
      deleteState b fuel c h) h
    return h.putState s none

/-- `~FiringFSM` before `top` is made. -/
def deleteFsm (b : Build) (fuel f : Nat) (h : StateHeap R H) : Option (StateHeap R H) := do
  let g ← h.fsm f
  b.assert (g.useCount = 0)
  let h ← (g.states.sort (· ≤ ·)).foldlM (fun h s => do
    let o ← h.state s
    b.assert (o.fsm = f)
    deleteState b fuel s h) h
  return h.putFsm f none

def unify (b : Build) (fuel this fr : Nat) (h : StateHeap R H) : Option (StateHeap R H) :=
  if this = fr then some h else do
    let f ← h.fsm fr
    let h ← moveStates b fuel this fr (f.states.sort (· ≤ ·)) h
    let g ← h.fsm this
    let h := h.putFsm this (some { g with useCount := g.useCount + f.useCount })
    deleteFsm b fuel fr (h.putFsm fr (some { f with useCount := 0, states := ∅ }))

/-! ## The state classes -/

def addRef (f : Nat) (h : StateHeap R H) : Option (StateHeap R H) := do
  let g ← h.fsm f
  return h.putFsm f (some { g with useCount := g.useCount + 1 })

/-- `intrusive_ptr_add_ref` -/
def acquire (s : Nat) (h : StateHeap R H) : Option (StateHeap R H) := do
  let o ← h.state s
  let h ← h.addRef o.fsm
  return { h with ptrs := s :: h.ptrs }

/-- `intrusive_ptr_release` -/
def release (b : Build) (fuel s : Nat) (h : StateHeap R H) : Option (StateHeap R H) := do
  let o ← h.state s
  let g ← h.fsm o.fsm
  b.assert (g.useCount ≠ 0)
  let h := h.putFsm o.fsm (some { g with useCount := g.useCount - 1 })
  let h := { h with ptrs := h.ptrs.erase s }
  if g.useCount = 1 then h.deleteFsm b fuel o.fsm else some h

def created (kind : StateKind) (h : StateHeap R H) : StateHeap R H :=
  { h with
    state := Function.update h.state (h.next + 1) (some ⟨kind, h.next, [], none, [], none, ∅, []⟩)
    fsm := Function.update h.fsm h.next (some ⟨{h.next + 1}, 0, []⟩)
    next := h.next + 2 }

def construct (kind : StateKind) (h : StateHeap R H) : Option (StateHeap R H) :=
  acquire (h.next + 1) (h.created kind)

def addTransition (b : Build) (fuel s : Nat) (h : StateHeap R H) (pt : R × Nat) : Option (StateHeap R H) := do
  let o ← h.state s
  let h := h.putState s (some { o with ptl := o.ptl ++ [pt] })
  let d ← h.state pt.2
  h.unify b fuel o.fsm d.fsm

def clearTransition (s : Nat) (h : StateHeap R H) : Option (StateHeap R H) := do
  let o ← h.state s
  return h.putState s (some { o with ptl := [] })

def add (b : Build) (fuel t s : Nat) (isInit : Bool) (h : StateHeap R H) : Option (StateHeap R H) := do
  let h ← h.unify b fuel (← h.state t).fsm (← h.state s).fsm
  let o ← h.state t
  let g ← h.fsm o.fsm
  b.assert ((← h.state s).fsm = o.fsm)
  b.assert (s ∈ g.states)
  let h := h.putFsm o.fsm (some { g with states := g.states.erase s })
  let h := h.putState t (some { o with c := o.c ++ [s], init := if isInit then some s else o.init })
  let os ← h.state s
  b.assert (os.parent = none ∨ os.parent = some t)
  return h.putState s (some { os with parent := some t })

def addState (b : Build) (fuel m s : Nat) (h : StateHeap R H) : Option (StateHeap R H) := do
  let h ← h.unify b fuel (← h.state m).fsm (← h.state s).fsm
  let o ← h.state m
  b.assert (s ∉ o.states)
  return h.putState m (some { o with states := insert s o.states })

def addCondState (b : Build) (fuel m s : Nat) (neg : Bool) (h : StateHeap R H) : Option (StateHeap R H) := do
  let h ← h.unify b fuel (← h.state m).fsm (← h.state s).fsm
  let o ← h.state m
  b.assert (s ∉ o.condStates.map Prod.fst)
  return h.putState m (some { o with
    condStates := if s ∈ o.condStates.map Prod.fst then o.condStates else o.condStates ++ [(s, neg)] })

def addTransitionHook (s : Nat) (hook : H) (h : StateHeap R H) : Option (StateHeap R H) := do
  let o ← h.state s
  let g ← h.fsm o.fsm
  return h.putFsm o.fsm (some { g with transitionHooks := g.transitionHooks ++ [hook] })

end StateHeap

/-! ## Building a model -/

inductive StateOp (R H : Type) where
  | construct (kind : StateKind)
  | addTransition (s : Nat) (stl : List (R × Nat))
  | clearTransition (s : Nat)
  | add (t s : Nat) (isInit : Bool)
  | addState (m s : Nat)
  | addCondState (m s : Nat) (neg : Bool)
  | acquire (s : Nat)
  | release (s : Nat)
  | addTransitionHook (s : Nat) (hook : H)

def StateOp.links {R H : Type} : StateOp R H → List (Nat × Nat)
  | .addTransition s stl => stl.map fun pt => (s, pt.2)
  | .add t s _ | .addState t s | .addCondState t s _ => [(t, s)]
  | _ => []

def StateOp.hooks {R H : Type} : StateOp R H → List H
  | .addTransitionHook _ hook => [hook]
  | _ => []

namespace StateHeap

variable {R H : Type}

def step (b : Build) (fuel : Nat) (h : StateHeap R H) : StateOp R H → Option (StateHeap R H)
  | .construct kind => h.construct kind
  | .addTransition s stl => stl.foldlM (addTransition b fuel s) h
  | .clearTransition s => h.clearTransition s
  | .add t s isInit => h.add b fuel t s isInit
  | .addState m s => h.addState b fuel m s
  | .addCondState m s neg => h.addCondState b fuel m s neg
  | .acquire s => h.acquire s
  | .release s => h.release b fuel s
  | .addTransitionHook s hook => h.addTransitionHook s hook

def Live (h : StateHeap R H) (s : Nat) : Prop := (h.state s).isSome

def Child (h : StateHeap R H) (s c : Nat) : Prop := ∃ o, h.state s = some o ∧ c ∈ o.c

def Below (h : StateHeap R H) : Nat → Nat → Prop := Relation.ReflTransGen h.Child

def belongs (h : StateHeap R H) (f s : Nat) : Bool := (h.state s).any fun o => o.fsm = f

def hooksAdded (h : StateHeap R H) (f : Nat) : StateOp R H → List H
  | .addTransitionHook s hook => if h.belongs f s then [hook] else []
  | _ => []

/-- One of the links merges the FSM into another one. -/
def Absorbed (h : StateHeap R H) (links : List (Nat × Nat)) (f : Nat) : Prop :=
  ∃ l ∈ links, h.belongs f l.2 = true ∧ ¬ h.belongs f l.1 = true

/-- What callers see to: the states exist, an added state is not contained yet and
does not contain the target; and a multi-state gets no state twice where that is asserted. -/
def Allowed (b : Build) (h : StateHeap R H) : StateOp R H → Prop
  | .construct _ => True
  | .addTransition s stl => h.Live s ∧ ∀ pt ∈ stl, h.Live pt.2
  | .clearTransition s | .acquire s | .addTransitionHook s _ => h.Live s
  | .add t s _ => ∃ o os, h.state t = some o ∧ h.state s = some os ∧ (o.kind = .xor ∨ o.kind = .and) ∧
      os.kind.IsStateImpl ∧ os.parent = none ∧ ¬ h.Below s t
  | .addState m s => ∃ o os, h.state m = some o ∧ h.state s = some os ∧ o.kind = .multi ∧ os.kind.IsStateImpl ∧
      (b.asserts = true → s ∉ o.states)
  | .addCondState m s _ => ∃ o os, h.state m = some o ∧ h.state s = some os ∧ o.kind = .multi ∧ os.kind.IsStateImpl ∧
      (b.asserts = true → s ∉ o.condStates.map Prod.fst)
  | .release s => s ∈ h.ptrs

/-- With enough fuel the operation completes in `h'`. -/
def Completes (b : Build) (h : StateHeap R H) (op : StateOp R H) (h' : StateHeap R H) : Prop :=
  ∃ n, ∀ fuel ≥ n, h.step b fuel op = some h'

def Step (b : Build) (h h' : StateHeap R H) : Prop := ∃ op, h.Allowed b op ∧ h.Completes b op h'

end StateHeap

end SysteMoC
