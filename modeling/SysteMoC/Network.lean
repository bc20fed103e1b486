import Mathlib.Data.Fintype.Basic
import SysteMoC.EventCalls
import SysteMoC.Multicast
import SysteMoC.Node

/-!
# Networks of actors

Actors on FIFOs, multireader FIFOs and reset channels, under the scheduler of the
simulator. The running process, the calls of the events it changes and the listeners
these signal take one step at a time; which listener is next is open. Ports are named
by the channels they are bound to.
-/

namespace SysteMoC

open CachedChoice (Call Awake Signalled)

inductive NetEvent (K Z : Type) where
  | chan (k : K) (e : EventRequest)
  | sae (z : Z)
deriving DecidableEq

/-! ## The network -/

/-- Guards and actions see the variables of their actor and the tokens that the
input ports' required counts let them read; no rule waits for other events. -/
structure Network (A K Z Q T V D : Type) where
  kind : K → ChanKind
  initialState : A → Q
  transitions : A → Q → List T
  destState : A → T → Q
  rule : A → T → RuntimeFiringRule K (List (K ⊕ Z)) (V × List (List (Option D)))
  events_nil : ∀ a t, (rule a t).events = []
  /-- The new variables and the tokens written, by output port and position. -/
  action : A → T → V → List (List (Option D)) → V × List (Nat × Nat × D)
  reset : A → V → V
  chans : Z → List (K ⊕ Z)
  nodes : Z → List (ResetNode A K Z)
  /-- A FIFO has one outlet. -/
  reader : K → A
  reader_eq : ∀ a t, ∀ info ∈ (rule a t).portInInfos, kind info.port = .fifo → a = reader info.port

/-- What is left to do of a firing. -/
inductive Task (A K Z D : Type) where
  | op (k : K) (o : FifoOp D)
  | copy (k k' : K) (n : Nat)
  | produce (z : Z) (n : Nat)
  | reset (r : (K ⊕ Z) ⊕ A)

inductive Control (A K Z T D : Type) where
  | idle
  /-- The loop of `scheduleRequestMethod` is at its condition. -/
  | polling (a : A)
  | acting (a : A) (t : T)
  | executing (a : A) (t : T) (todo : List (Task A K Z D))

namespace Control

variable {A K Z T D : Type}

def isIdle : Control A K Z T D → Bool
  | idle => true
  | _ => false

/-- Other code than that of the library runs. -/
def mayCall : Control A K Z T D → Bool
  | idle | acting _ _ => true
  | _ => false

end Control

structure NetState (A K Z Q T V D : Type) where
  chans : K → FifoChan D Bool
  sae : Z → Bool
  nodes : A → NodeBase Q T (Finset (NetEvent K Z))
  vars : A → V
  control : Control A K Z T D
  calls : List (NetEvent K Z × Call)
  signals : A → Finset (Finset (NetEvent K Z))
  renotified : Bool

/-- With the pending requests and a record of the run: the calls of `notifyActivation`, the last
one first, whether the last search was made while polling, and the guards evaluated so far with
the channels as they were. -/
structure Simulation (A K Z Q T V D : Type) extends NetState A K Z Q T V D where
  request : A → Bool
  flags : List (A × Bool)
  polled : A → Bool
  guards : List (A × T × (K → FifoChan D Bool))

/-- `step` is the next step of the running process. -/
inductive Label (A K Z : Type) where
  | deliver (a : A) (e : Finset (NetEvent K Z))
  | call
  | reset (r : (K ⊕ Z) ⊕ A)
  | setActive (a : A) (flag : Bool)
  | setUseActivationCallback (a : A) (flag : Bool)
  | run (a : A)
  | step

def visited {T : Type} (check : T → Bool) : List T → List T
  | [] => []
  | t :: tl => t :: if check t then [] else visited check tl

namespace RuntimeFiringRule

variable {K Z V D : Type}

def sinkEvent (n : Nat) : K ⊕ Z → NetEvent K Z
  | .inl k => .chan k (.space n)
  | .inr z => .sae z

/-- The events in the and-list that `end_of_elaboration` gets from the ports. -/
def ioPatternWaiter [DecidableEq K] [DecidableEq Z] {S : Type} (fr : RuntimeFiringRule K (List (K ⊕ Z)) S) :
    Finset (NetEvent K Z) :=
  (fr.portInInfos.map (fun info : PortInInfo K => NetEvent.chan info.port (.data info.required)) ++
    fr.portOutInfos.flatMap fun info : PortOutInfo (List (K ⊕ Z)) => info.port.map (sinkEvent info.required)).toFinset

def commExecOut (A D : Type) (info : PortOutInfo (List (K ⊕ Z))) : List (Task A K Z D) :=
  (match info.port with
    | .inl k :: sinks => sinks.filterMap fun s => s.getLeft?.map fun k' => .copy k k' info.produced
    | _ => []) ++
  info.port.flatMap fun s =>
    match s with
    | .inl k => [.op k (.entryStart info.produced), .op k (.entryFinish info.produced false)]
    | .inr z => [.produce z info.produced]

def tasks (A : Type) {S : Type} (fr : RuntimeFiringRule K (List (K ⊕ Z)) S) (writes : List (Nat × Nat × D)) :
    List (Task A K Z D) :=
  writes.filterMap (fun w => do
    let info ← fr.portOutInfos[w.1]?
    let s ← info.port.head?
    let k ← s.getLeft?
    return .op k (.write info.produced w.2.1 w.2.2)) ++
  fr.portInInfos.flatMap (fun info =>
    [.op info.port (.outletStart info.consumed), .op info.port (.outletFinish info.consumed)]) ++
  fr.portOutInfos.flatMap (commExecOut A D)

end RuntimeFiringRule

namespace NetState

variable {A K Z Q T V D : Type}

def isActive (s : NetState A K Z Q T V D) : NetEvent K Z → Bool
  | .chan k e => (s.chans k).isActiveAt e
  | .sae z => s.sae z

/-- No event is being delivered. -/
def Settled (s : NetState A K Z Q T V D) : Prop := s.calls = [] ∧ ∀ a, s.signals a = ∅

instance [Fintype A] [DecidableEq K] [DecidableEq Z] (s : NetState A K Z Q T V D) : Decidable s.Settled :=
  inferInstanceAs (Decidable (_ ∧ _))

def tokens {S : Type} (b : Build) (s : NetState A K Z Q T V D) (fr : RuntimeFiringRule K (List (K ⊕ Z)) S) :
    List (List (Option D)) :=
  fr.portInInfos.map fun info =>
    (List.range info.required).map fun i => FifoOutlet.read b (s.chans info.port) info.required i

section
variable [DecidableEq K] [DecidableEq Z]

def callChans (chans : K → FifoChan D Bool) (c : NetEvent K Z × Call) : K → FifoChan D Bool :=
  match c.1 with
  | .chan k e => Function.update chans k ((chans k).call (e, c.2))
  | .sae _ => chans

def callSae (sae : Z → Bool) (c : NetEvent K Z × Call) : Z → Bool :=
  match c.1 with
  | .chan _ _ => sae
  | .sae z => Function.update sae z (EventMapManager.run c.2 (sae z))

def perform (c : NetEvent K Z × Call) (s : NetState A K Z Q T V D) : NetState A K Z Q T V D :=
  { s with chans := callChans s.chans c, sae := callSae s.sae c }

end

end NetState

namespace Simulation

variable {A K Z Q T V D : Type} [DecidableEq A]

def setNode (a : A) (n : NodeBase Q T (Finset (NetEvent K Z))) (s : Simulation A K Z Q T V D) : Simulation A K Z Q T V D :=
  { s with nodes := Function.update s.nodes a n }

/-- A notification requests the schedule of the actor, or cancels the request. -/
def notifyActivation (a : A) (activation : Option Bool) (s : Simulation A K Z Q T V D) : Simulation A K Z Q T V D :=
  match activation with
  | none => s
  | some activation =>
    { s with request := Function.update s.request a activation, flags := (a, activation) :: s.flags }

end Simulation

namespace Network

variable {A K Z Q T V D : Type} [DecidableEq K] [DecidableEq Z]

def fsm (net : Network A K Z Q T V D) (a : A) : RuntimeFSM Q T (Finset (NetEvent K Z)) where
  initialState := net.initialState a
  transitions := net.transitions a
  ioPatternWaiter t := (net.rule a t).ioPatternWaiter
  destState := net.destState a

def options (net : Network A K Z Q T V D) (b : Build) (s : NetState A K Z Q T V D) (a : A) (q : Q) :
    CachedChoice.Options (NetEvent K Z) T where
  list := net.transitions a q
  events t := (net.rule a t).ioPatternWaiter
  guard t := (net.rule a t).guard.value (s.vars a, s.tokens b (net.rule a t))

def check (net : Network A K Z Q T V D) (b : Build) (s : NetState A K Z Q T V D) (a : A) (t : T) : Bool :=
  decide (Awake s.isActive (net.rule a t).ioPatternWaiter) &&
    (net.rule a t).guard.value (s.vars a, s.tokens b (net.rule a t))

def evaluated (net : Network A K Z Q T V D) (s : NetState A K Z Q T V D) (a : A) (tl : List T) : List T :=
  tl.filter fun t => decide (Awake s.isActive (net.rule a t).ioPatternWaiter)

/-- The transitions that `searchActiveTransition` looks at in a runtime state. -/
def searched (net : Network A K Z Q T V D) (b : Build) (s : NetState A K Z Q T V D) (a : A) (q : Option Q) : List T :=
  q.elim [] fun q => visited (net.check b s a) (net.transitions a q)

def logGuards (net : Network A K Z Q T V D) (a : A) (tl : List T) (s : Simulation A K Z Q T V D) : Simulation A K Z Q T V D :=
  { s with guards := (net.evaluated s.toNetState a tl).map (fun t => (a, t, s.chans)) ++ s.guards }

variable [DecidableEq A]

/-- A search in a runtime state, where there is one. -/
def logSearch (net : Network A K Z Q T V D) (b : Build) (a : A) (q : Option Q) (searches polled : Bool)
    (s : Simulation A K Z Q T V D) : Simulation A K Z Q T V D :=
  if searches then
    { net.logGuards a (net.searched b s.toNetState a q) s with polled := Function.update s.polled a polled }
  else s

variable [DecidableEq Q]

def resetNode (net : Network A K Z Q T V D) (b : Build) (a : A) (s : Simulation A K Z Q T V D) : Simulation A K Z Q T V D :=
  let s := { s with vars := Function.update s.vars a (net.reset a (s.vars a)) }
  let (n, sent) := (s.nodes a).doReset (net.fsm a) (net.check b s.toNetState a)
  let s := net.logSearch b a (some (net.initialState a)) (s.nodes a).callbackDriven false s
  (s.setNode a n).notifyActivation a sent

variable [Token D]

/-- An operation on a channel, up to the calls of its events. -/
def chanOp (net : Network A K Z Q T V D) (b : Build) (k : K) (o : FifoOp D) (s : NetState A K Z Q T V D) :
    Option (NetState A K Z Q T V D) := do
  let ch ← (net.kind k).step b (s.chans k) o
  return { s with
    chans := Function.update s.chans k (ch.withEventsOf (s.chans k))
    calls := ((net.kind k).calls (s.chans k) ch o).map fun c => (.chan k c.1, c.2) }

def doReset (net : Network A K Z Q T V D) (b : Build) (r : (K ⊕ Z) ⊕ A) (s : Simulation A K Z Q T V D) :
    Option (Simulation A K Z Q T V D) :=
  match r with
  | .inl (.inl k) => do
    let s' ← net.chanOp b k .doReset s.toNetState
    return { s with toNetState := s' }
  | .inl (.inr z) => some { s with calls := [(.sae z, .notify)] }
  | .inr a => some (net.resetNode b a s)

def resets (net : Network A K Z Q T V D) (z : Z) : List ((K ⊕ Z) ⊕ A) :=
  (net.chans z).map .inl ++ ResetNode.doResetAll (net.nodes z)

def doTask (net : Network A K Z Q T V D) (b : Build) (a : A) (t : T) (task : Task A K Z D) (todo : List (Task A K Z D))
    (s : Simulation A K Z Q T V D) : Option (Simulation A K Z Q T V D) :=
  match task with
  | .op k o => do
    let s' ← net.chanOp b k o { s.toNetState with control := .executing a t todo }
    return { s with toNetState := s' }
  | .copy k k' n => do
    let (head, ch) ← copyTokens b n 0 n (s.chans k) (s.chans k')
    return { s with
      chans := Function.update (Function.update s.chans k head) k' ch
      control := .executing a t todo }
  | .produce z n => do
    b.assert (n = 1)
    return { s with control := .executing a t ((net.resets z).map .reset ++ todo) }
  | .reset r => net.doReset b r { s with control := .executing a t todo }

def poll (net : Network A K Z Q T V D) (b : Build) (a : A) (s : Simulation A K Z Q T V D) : Option (Simulation A K Z Q T V D) :=
  if (s.nodes a).active then
    let (n, fire) := (s.nodes a).canFire (net.fsm a) (net.check b s.toNetState a)
    let s := net.logSearch b a (s.nodes a).currentState (!(s.nodes a).useActivationCallback) true s
    if fire then do
      -- `assert(ct->check())`
      let s := if b.asserts then net.logGuards a n.ct.toList s else s
      let (n, t) ← n.schedule b (net.check b s.toNetState a)
      return { s.setNode a n with control := .acting a t }
    else some { s.setNode a n with control := .idle }
  else some { s with control := .idle }

def act (net : Network A K Z Q T V D) (b : Build) (a : A) (t : T) (s : Simulation A K Z Q T V D) : Simulation A K Z Q T V D :=
  let (v, writes) := net.action a t (s.vars a) (s.tokens b (net.rule a t))
  { s with
    vars := Function.update s.vars a v
    control := .executing a t ((net.rule a t).tasks A writes) }

def finish (net : Network A K Z Q T V D) (b : Build) (a : A) (t : T) (s : Simulation A K Z Q T V D) : Simulation A K Z Q T V D :=
  let n := (s.nodes a).scheduleReturn (net.fsm a) (net.check b s.toNetState a) t
  let s := net.logSearch b a (some (net.destState a t)) (s.nodes a).useActivationCallback true s
  { s.setNode a n with control := .polling a }

def deliver (net : Network A K Z Q T V D) (b : Build) (a : A) (e : Finset (NetEvent K Z)) (s : Simulation A K Z Q T V D) :
    Option (Simulation A K Z Q T V D) := do
  let isActive := decide (Awake s.isActive e)
  let (n, sent) ← (s.nodes a).signaled b (net.fsm a) (net.check b s.toNetState a) e isActive
  let (n, remove) ← n.signaledReturn b e
  -- `renotified` drops the result
  if s.renotified then b.assert (remove = false)
  let n := if !s.renotified && remove then { n with listening := n.listening.erase e } else n
  let s := { s with signals := Function.update s.signals a ((s.signals a).erase e) }
  let s := net.logSearch b a (s.nodes a).currentState
    (!(s.nodes a).executing && (isActive || (s.nodes a).ct.isSome)) false s
  return (s.setNode a n).notifyActivation a sent

def proceed (net : Network A K Z Q T V D) (b : Build) (s : Simulation A K Z Q T V D) : Option (Simulation A K Z Q T V D) :=
  match s.control with
  | .idle => none
  | .polling a => net.poll b a s
  | .acting a t => some (net.act b a t s)
  | .executing a t [] => some (net.finish b a t s)
  | .executing a t (task :: todo) => net.doTask b a t task todo s

/-- The setters search when they turn callbacks on. -/
def setActive (net : Network A K Z Q T V D) (b : Build) (a : A) (flag : Bool) (s : Simulation A K Z Q T V D) :
    Option (Simulation A K Z Q T V D) := do
  let (n, sent) ← (s.nodes a).setActive b (net.fsm a) (net.check b s.toNetState a) flag
  let s := net.logSearch b a (s.nodes a).currentState
    (!(s.nodes a).callbackDriven && (flag && (s.nodes a).useActivationCallback)) false s
  return (s.setNode a n).notifyActivation a sent

def setUseActivationCallback (net : Network A K Z Q T V D) (b : Build) (a : A) (flag : Bool) (s : Simulation A K Z Q T V D) :
    Simulation A K Z Q T V D :=
  let (n, sent) := (s.nodes a).setUseActivationCallback (net.fsm a) (net.check b s.toNetState a) flag
  let s := net.logSearch b a (s.nodes a).currentState
    (!(s.nodes a).callbackDriven && ((s.nodes a).active && flag)) false s
  (s.setNode a n).notifyActivation a sent

/-- The first call that is left; the listeners of the sets it signals are told next. -/
def nextCall (s : Simulation A K Z Q T V D) : Option (Simulation A K Z Q T V D) :=
  match s.calls with
  | [] => none
  | c :: calls =>
    let s' := s.perform c
    some { s with
      toNetState := { s' with
        calls
        signals := fun a => (s.nodes a).listening.filter fun w => Signalled c s.isActive s'.isActive w
        renotified := decide (c.2 = .renotify) } }

variable [Fintype A]

/-- A call waits for the listeners of the one before, everything else for all calls.
The flags of an actor may be set from outside and by actions. -/
def step (net : Network A K Z Q T V D) (b : Build) (s : Simulation A K Z Q T V D) (l : Label A K Z) :
    Option (Simulation A K Z Q T V D) :=
  match l with
  | .deliver a e => if e ∈ s.signals a then net.deliver b a e s else none
  | .call => if ∀ a, s.signals a = ∅ then nextCall s else none
  | .reset r => if s.Settled ∧ s.control.isIdle = true then net.doReset b r s else none
  | .setActive a flag => if s.Settled ∧ s.control.mayCall = true then net.setActive b a flag s else none
  | .setUseActivationCallback a flag =>
    if s.Settled ∧ s.control.mayCall = true then some (net.setUseActivationCallback b a flag s) else none
  | .run a =>
    if s.Settled ∧ s.control.isIdle = true ∧ s.request a = true then
      some { s with request := Function.update s.request a false, control := .polling a }
    else none
  | .step => if s.Settled then net.proceed b s else none

/-! ## Runs -/

/-- The channels as elaboration leaves them, with the events the rules ask for. -/
def Elaborated (net : Network A K Z Q T V D) (b : Build) (chans : K → FifoChan D Bool) : Prop :=
  ∀ k, ∃ (n : Nat) (l : List D) (rs : List EventRequest), l.length ≤ n ∧
    rs.foldlM ((net.kind k).request b) (.new n l) = some (chans k) ∧
    ∀ a t, (∀ info ∈ (net.rule a t).portInInfos, info.port = k → .data info.required ∈ rs) ∧
      ∀ info ∈ (net.rule a t).portOutInfos, .inl k ∈ info.port → .space info.required ∈ rs

def start (chans : K → FifoChan D Bool) (vars : A → V) : Simulation A K Z Q T V D where
  chans := chans
  sae _ := false
  nodes _ := .new Q T (Finset (NetEvent K Z))
  vars := vars
  control := .idle
  calls := []
  signals _ := ∅
  renotified := false
  request _ := false
  flags := []
  polled _ := false
  guards := []

/-- The next operation on a channel is within its counts. -/
def WithinCounts (s : NetState A K Z Q T V D) : Label A K Z → Prop
  | .step =>
    match s.control with
    | .executing _ _ (.op k o :: _) => (s.chans k).Guarded o
    | .executing _ _ (.copy k k' n :: _) => n ≤ FifoEntry.numFree (s.chans k) ∧ n ≤ FifoEntry.numFree (s.chans k')
    | _ => True
  | _ => True

instance (s : NetState A K Z Q T V D) : DecidablePred (WithinCounts (A := A) (K := K) (Z := Z) s) := fun l => by
  unfold WithinCounts
  split
  · split
    · infer_instance
    · infer_instance
    · infer_instance
  · infer_instance

def StepOf (net : Network A K Z Q T V D) (b : Build) (allowed : Simulation A K Z Q T V D → Label A K Z → Prop)
    (s s' : Simulation A K Z Q T V D) : Prop :=
  ∃ l, allowed s l ∧ net.step b s l = some s'

end Network

end SysteMoC
