import Mathlib.Algebra.BigOperators.Group.List.Basic
import SysteMoC.Queue

/-!
# Guards and firing rules

The expressions a guard is built from, firing rules and the requirements the guard
visitor collects for a rule.
-/

namespace SysteMoC

/-- `value` and `isActive` read what the evaluation of an expression can see. -/
inductive Guard (I O S : Type) where
  | expr (value : S → Bool)
  | event (isActive : S → Bool)
  | input (port : I) (committed required : Nat)
  | output (port : O) (committed required : Nat)
  | lnot (e : Guard I O S)
  | land (a b : Guard I O S)
  | lor (a b : Guard I O S)

namespace Guard

variable {I O S : Type}

/-- A port pattern and an event are `ENABLED` once the rule is evaluated at all. -/
def value (s : S) : Guard I O S → Bool
  | expr value => value s
  | event _ => true
  | input _ _ _ => true
  | output _ _ _ => true
  | lnot e => !e.value s
  | land a b => a.value s && b.value s
  | lor a b => a.value s || b.value s

end Guard

/-! ## Firing rules -/

structure FiringRule (I O S A : Type) where
  guard : Guard I O S
  action : List A

def merge {A : Type} (a b : List A) : List A := if a = [] then b else if b = [] then a else a ++ b

/-! ## The guard visitor -/

structure PortInInfo (I : Type) where
  port : I
  consumed : Nat
  required : Nat

structure PortOutInfo (O : Type) where
  port : O
  produced : Nat
  required : Nat

structure RuntimeFiringRule (I O S : Type) where
  guard : Guard I O S
  portInInfos : List (PortInInfo I)
  portOutInfos : List (PortOutInfo O)
  events : List (S → Bool)

namespace RuntimeFiringRule

variable {I O S : Type}

def visit (b : Build) : Guard I O S → RuntimeFiringRule I O S → Option (RuntimeFiringRule I O S)
  | .expr _, fr => some fr
  | .event e, fr => some { fr with events := fr.events ++ [e] }
  | .input p c r, fr => do
    b.assert (c ≤ r)
    return { fr with portInInfos := fr.portInInfos ++ [⟨p, c, r⟩] }
  | .output p c r, fr => do
    b.assert (c = 0 ∨ c = r)
    return { fr with portOutInfos := fr.portOutInfos ++ [⟨p, c, r⟩] }
  | .lnot e, fr => visit b e fr
  | .land x y, fr => visit b x fr >>= visit b y
  | .lor x y, fr => visit b x fr >>= visit b y

def new (b : Build) (guard : Guard I O S) : Option (RuntimeFiringRule I O S) := visit b guard ⟨guard, [], [], []⟩

end RuntimeFiringRule

namespace Guard

variable {I O S : Type} {b : Build} {fr fr' : RuntimeFiringRule I O S}

def inputs : Guard I O S → List (PortInInfo I)
  | input p c r => [⟨p, c, r⟩]
  | lnot e => e.inputs
  | land x y | lor x y => x.inputs ++ y.inputs
  | _ => []

def outputs : Guard I O S → List (PortOutInfo O)
  | output p c r => [⟨p, c, r⟩]
  | lnot e => e.outputs
  | land x y | lor x y => x.outputs ++ y.outputs
  | _ => []

def events : Guard I O S → List (S → Bool)
  | event e => [e]
  | lnot e => e.events
  | land x y | lor x y => x.events ++ y.events
  | _ => []

theorem visit_eq {g : Guard I O S} (h : RuntimeFiringRule.visit b g fr = some fr') :
    fr' = ⟨fr.guard, fr.portInInfos ++ g.inputs, fr.portOutInfos ++ g.outputs, fr.events ++ g.events⟩ := by
  induction g generalizing fr fr' with
  | expr | event =>
    cases h
    simp [inputs, outputs, events]
  | input p c r | output p c r =>
    obtain ⟨_, _, heq⟩ := Option.bind_eq_some_iff.mp h
    cases heq
    simp [inputs, outputs, events]
  | lnot e ih => exact ih h
  | land x y ihx ihy | lor x y ihx ihy =>
    obtain ⟨fr₁, h₁, h₂⟩ := Option.bind_eq_some_iff.mp h
    rw [ihy h₂, ihx h₁]
    simp only [inputs, outputs, events, List.append_assoc]

theorem new_eq {g : Guard I O S} (h : RuntimeFiringRule.new b g = some fr) : fr = ⟨g, g.inputs, g.outputs, g.events⟩ :=
  visit_eq h

end Guard

end SysteMoC
