import SysteMoC.Channel
import SysteMoC.Guard

/-!
# Enabling and firing

`RuntimeTransition::check` on the events of the connected channels and the
communication that the scheduler executes for a rule, with what reset channels reset.
-/

namespace SysteMoC

structure Ports (I O K : Type) where
  source : I → K
  sinks : O → List K

def EventMapManager.isActiveAt {ε : Type} [SmocEvent ε] (em : EventMapManager ε) (n : Nat) : Bool :=
  (em.eventMap.lookup n).any SmocEvent.isActive

def onChan {K : Type} [DecidableEq K] (l : List (K × Nat)) (k : K) : List Nat := (l.filter (·.1 = k)).map Prod.snd

section
variable {I O K : Type}

def reads (net : Ports I O K) (amount : PortInInfo I → Nat) (infos : List (PortInInfo I)) : List (K × Nat) :=
  infos.map fun info => (net.source info.port, amount info)

def writes (net : Ports I O K) (amount : PortOutInfo O → Nat) (infos : List (PortOutInfo O)) : List (K × Nat) :=
  infos.flatMap fun info => (net.sinks info.port).map fun k => (k, amount info)

end

namespace RuntimeFiringRule

variable {I O S K T ε : Type} [SmocEvent ε]

/-- The events `end_of_elaboration` asks the channel `k` for. -/
def requests [DecidableEq K] (fr : RuntimeFiringRule I O S) (net : Ports I O K) (k : K) : List EventRequest :=
  (onChan (reads net PortInInfo.required fr.portInInfos) k).map .data ++
    (onChan (writes net PortOutInfo.required fr.portOutInfos) k).map .space

def ioPatternActive (fr : RuntimeFiringRule I O S) (net : Ports I O K) (σ : K → FifoChan T ε) (s : S) : Bool :=
  fr.events.all (· s) && (reads net PortInInfo.required fr.portInInfos).all (fun a => (σ a.1).emmData.isActiveAt a.2) &&
    (writes net PortOutInfo.required fr.portOutInfos).all fun a => (σ a.1).emmSpace.isActiveAt a.2

def check (fr : RuntimeFiringRule I O S) (net : Ports I O K) (σ : K → FifoChan T ε) (s : S) : Bool :=
  fr.ioPatternActive net σ s && fr.guard.value s

end RuntimeFiringRule

/-! ## Nodes that are reset -/

/-- A graph resets its channels, its nodes, and itself where it has an FSM. -/
inductive ResetNode (A K Z : Type) where
  | actor (a : A)
  | graph (channels : List (K ⊕ Z)) (nodes : List (ResetNode A K Z)) (self : Option A)

namespace ResetNode

variable {A K Z : Type}

mutual

def doReset : ResetNode A K Z → List ((K ⊕ Z) ⊕ A)
  | actor a => [.inr a]
  | graph channels nodes self => channels.map .inl ++ doResetAll nodes ++ self.toList.map .inr

def doResetAll : List (ResetNode A K Z) → List ((K ⊕ Z) ⊕ A)
  | [] => []
  | n :: ns => n.doReset ++ doResetAll ns

end

end ResetNode

/-- The channels behind the ports, with reset channels behind output ports and what these reset. -/
structure Wiring (A I O K Z : Type) where
  source : I → K
  sinks : O → List (K ⊕ Z)
  chans : Z → List (K ⊕ Z)
  nodes : Z → List (ResetNode A K Z)

namespace Wiring

variable {A I O S K Z T ε : Type} [Token T] [SmocEvent ε]

def fifos (net : Wiring A I O K Z) : Ports I O K where
  source := net.source
  sinks p := (net.sinks p).filterMap Sum.getLeft?

def resets (net : Wiring A I O K Z) (z : Z) : List K :=
  ((net.chans z).map Sum.inl ++ ResetNode.doResetAll (net.nodes z)).filterMap fun r : (K ⊕ Z) ⊕ A => r.getLeft?.bind Sum.getLeft?

/-- The reset channels whose events the rule waits for. -/
def awaited (net : Wiring A I O K Z) (fr : RuntimeFiringRule I O S) : List Z :=
  fr.portOutInfos.flatMap fun info => (net.sinks info.port).filterMap Sum.getRight?

def check (net : Wiring A I O K Z) (fr : RuntimeFiringRule I O S) (σ : K → FifoChan T ε) (sae : Z → Bool) (s : S) : Bool :=
  fr.ioPatternActive net.fifos σ s && (net.awaited fr).all sae && fr.guard.value s

def commits (net : Wiring A I O K Z) (infos : List (PortOutInfo O)) : List ((K ⊕ Z) × Nat) :=
  infos.flatMap fun info => (net.sinks info.port).map fun sink => (sink, info.produced)

variable [DecidableEq K]

def commExecIn (b : Build) (kind : K → ChanKind) (σ : K → FifoChan T ε) (a : K × Nat) : Option (K → FifoChan T ε) := do
  let ch ← (kind a.1).commExecIn b (σ a.1) a.2
  return Function.update σ a.1 ch

def doReset (b : Build) (kind : K → ChanKind) (σ : K → FifoChan T ε) (k : K) : Option (K → FifoChan T ε) := do
  let ch ← (kind k).step b (σ k) .doReset
  return Function.update σ k ch

/-- A reset channel takes one token and resets. -/
def commExecOut (net : Wiring A I O K Z) (b : Build) (kind : K → ChanKind) (σ : K → FifoChan T ε) (a : (K ⊕ Z) × Nat) :
    Option (K → FifoChan T ε) :=
  a.1.elim
    (fun k => do
      let ch ← (kind k).commExecOut b (σ k) a.2
      return Function.update σ k ch)
    fun z => do
      b.assert (a.2 = 1)
      (net.resets z).foldlM (doReset b kind) σ

def executeFiringRule (net : Wiring A I O K Z) (b : Build) (kind : K → ChanKind) (fr : RuntimeFiringRule I O S)
    (σ : K → FifoChan T ε) : Option (K → FifoChan T ε) := do
  let σ ← (reads net.fifos PortInInfo.consumed fr.portInInfos).foldlM (commExecIn b kind) σ
  (net.commits fr.portOutInfos).foldlM (net.commExecOut b kind) σ

end Wiring

/-! ## The amounts in a guard -/

namespace Guard

variable {I O S K : Type} [DecidableEq K]

def consumed (g : Guard I O S) (net : Ports I O K) (k : K) : Nat := (onChan (reads net PortInInfo.consumed g.inputs) k).sum

def produced (g : Guard I O S) (net : Ports I O K) (k : K) : Nat :=
  (onChan (writes net PortOutInfo.produced g.outputs) k).sum

def demand (g : Guard I O S) (net : Ports I O K) (k : K) : Nat :=
  (onChan (reads net PortInInfo.required g.inputs) k).foldr max 0

def space (g : Guard I O S) (net : Ports I O K) (k : K) : Nat :=
  (onChan (writes net PortOutInfo.required g.outputs) k).foldr max 0

/-- The events and the expressions of the guard hold. -/
def Admits (g : Guard I O S) (s : S) : Prop := (∀ e ∈ g.events, e s = true) ∧ g.value s = true

/-- Nothing keeps a rule with this guard from being enabled in some state. -/
structure Possible (g : Guard I O S) (net : Ports I O K) (depth : K → Nat) : Prop where
  fits : ∀ k, g.demand net k + g.space net k ≤ depth k
  holds : ∃ s, g.Admits s

/-- The patterns of a channel together move no more than one of them asks for. -/
structure Sums (g : Guard I O S) (net : Ports I O K) : Prop where
  consumed_le : ∀ k, g.consumed net k ≤ g.demand net k
  produced_le : ∀ k, g.produced net k ≤ g.space net k

end Guard

/-! ## Commits after a reset -/

/-- What the commits do to the FIFO `k`: they put tokens into it, or reset it. -/
def Wiring.steps {A I O K Z : Type} [DecidableEq K] (net : Wiring A I O K Z) (l : List ((K ⊕ Z) × Nat)) (k : K) :
    List (Option Nat) :=
  l.filterMap fun a => a.1.elim (fun k' => if k' = k then some (some a.2) else none) fun z =>
      if k ∈ net.resets z then some none else none

/-- Each commit finds its places, of which a reset leaves `room`. -/
def Room (room : Nat) : Nat → List (Option Nat) → Prop
  | _, [] => True
  | free, some n :: l => n ≤ free ∧ Room room (free - n) l
  | _, none :: l => Room room room l

/-- What is committed to a FIFO after it has been reset fits beside its initial tokens. -/
structure Guard.Restarts {A I O S K Z : Type} [DecidableEq K] (g : Guard I O S) (net : Wiring A I O K Z)
    (depth init : K → Nat) : Prop where
  one : ∀ z n, (.inr z, n) ∈ net.commits g.outputs → n = 1
  room : ∀ k, Room (depth k - init k) 0 ((net.steps (net.commits g.outputs) k).dropWhile Option.isSome)

end SysteMoC
