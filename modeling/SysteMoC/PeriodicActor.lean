import Mathlib.Data.Rat.Defs
import SysteMoC.Node

/-!
# Periodic actors

`smoc_periodic_actor` with the scheduler of its own that it is told of an
activation by. The calls of a run come in any order while time goes on.
-/

namespace SysteMoC

/-- `sc_time`, whose sums and differences wrap. -/
abbrev ScTime := BitVec 64

structure SmocPeriodicActor (Q T W : Type) where
  node : NodeBase Q T W
  period_counter : Nat
  period : ScTime
  offset : ScTime
  nextReleaseTime : ScTime
  jitter : ℚ
  reexecute : Bool
  periodicActorActive : Bool

/-- What becomes of the event `scheduleRequest`. -/
inductive Request where
  | notify (delay : ScTime)
  | cancel
deriving DecidableEq

namespace SmocPeriodicActor

variable {Q T W : Type} [DecidableEq Q] [DecidableEq W]

omit [DecidableEq Q] [DecidableEq W] in
def new (per off : ScTime) (jitter : ℚ) : SmocPeriodicActor Q T W where
  node := .new Q T W
  period_counter := 0
  period := per
  offset := off
  nextReleaseTime := off
  jitter := jitter
  reexecute := false
  periodicActorActive := true

/-- With `drawn` for the product of the jitter, a random factor and the period. -/
def calculateMobility (drawn : ScTime) (a : SmocPeriodicActor Q T W) : ScTime := if a.jitter ≠ 0 then drawn else 0

/-- The body of the loop in `updateReleaseTime`, with `product` for SystemC's product of a number
and a time. The counter is an `int`. -/
def nextRelease (product : Nat → ScTime → ScTime) (drawn : ScTime) (a : SmocPeriodicActor Q T W) :
    Option (SmocPeriodicActor Q T W) :=
  if a.period_counter + 1 < 2 ^ 31 then
    let a := { a with period_counter := a.period_counter + 1 }
    some { a with nextReleaseTime := product a.period_counter a.period + a.offset + a.calculateMobility drawn }
  else none

/-- The random numbers are given by the counter. -/
def updateReleaseTime (product : Nat → ScTime → ScTime) (now : ScTime) (drawn : Nat → ScTime) :
    Nat → SmocPeriodicActor Q T W → Option (SmocPeriodicActor Q T W)
  | 0, _ => none
  | fuel + 1, a =>
    if a.nextReleaseTime ≤ now then
      (a.nextRelease product (drawn a.period_counter)).bind (updateReleaseTime product now drawn fuel)
    else some a

def getNextReleaseTime (now : ScTime) (a : SmocPeriodicActor Q T W) : ScTime :=
  if a.reexecute || !a.periodicActorActive then now else a.nextReleaseTime

def notifyActivation (now : ScTime) (activation : Bool) (a : SmocPeriodicActor Q T W) : Request :=
  if activation then .notify (a.getNextReleaseTime now - now) else .cancel

def canFire (fsm : RuntimeFSM Q T W) (check : T → Bool) (now : ScTime) (a : SmocPeriodicActor Q T W) :
    SmocPeriodicActor Q T W × Option Request × Bool :=
  let (n, active) := a.node.canFire fsm check
  let a := { a with node := n }
  if active && decide (a.getNextReleaseTime now > now) && a.node.useActivationCallback then
    (a, some (a.notifyActivation now true), false)
  else (a, none, active)

def schedule (b : Build) (check : T → Bool) (a : SmocPeriodicActor Q T W) : Option (SmocPeriodicActor Q T W × T) := do
  let a := { a with reexecute := false, periodicActorActive := true }
  let (n, t) ← a.node.schedule b check
  return ({ a with node := n }, t)

def scheduleReturn (product : Nat → ScTime → ScTime) (fsm : RuntimeFSM Q T W) (check : T → Bool) (t : T) (now : ScTime)
    (drawn : Nat → ScTime) (fuel : Nat) (a : SmocPeriodicActor Q T W) : Option (SmocPeriodicActor Q T W) :=
  let a := { a with node := a.node.scheduleReturn fsm check t }
  if !a.reexecute && a.periodicActorActive then a.updateReleaseTime product now drawn fuel else some a

end SmocPeriodicActor

/-- An actor at a simulation time, with the transition that it executes. -/
structure PeriodicRun (Q T W : Type) where
  actor : SmocPeriodicActor Q T W
  now : ScTime
  executing : Option T

inductive PeriodicCall (T W : Type) where
  | wait (time : ScTime)
  | doReset (check : T → Bool)
  | setUseActivationCallback (check : T → Bool) (flag : Bool)
  | setActive (check : T → Bool) (flag : Bool)
  | forceReexecution
  | stopPeriodicActorExecution
  | restartPeriodicActorExecution
  | signaled (check : T → Bool) (e : W) (isActive : Bool)
  | scheduleRequest (check : T → Bool)
  | scheduleReturn (check : T → Bool) (drawn : Nat → ScTime) (fuel : Nat)

namespace PeriodicRun

variable {Q T W : Type} [DecidableEq Q] [DecidableEq W]

omit [DecidableEq Q] [DecidableEq W] in
def new (per off : ScTime) (jitter : ℚ) : PeriodicRun Q T W := ⟨.new per off jitter, 0, none⟩

/-- The actor with the node after a call, and what its notification does. -/
def told (s : PeriodicRun Q T W) (r : NodeBase Q T W × Option Bool) : PeriodicRun Q T W × Option Request :=
  let a := { s.actor with node := r.1 }
  ({ s with actor := a }, r.2.map fun activation => a.notifyActivation s.now activation)

/-- The waiter's part of a delivery: it removes the listener that asks for it. -/
def delivered (b : Build) (e : W) (s : PeriodicRun Q T W) : Option (PeriodicRun Q T W) := do
  let (n, remove) ← s.actor.node.signaledReturn b e
  let n := { n with listening := if remove then n.listening.erase e else n.listening }
  return { s with actor := { s.actor with node := n } }

def scheduleRequest (b : Build) (fsm : RuntimeFSM Q T W) (check : T → Bool) (s : PeriodicRun Q T W) :
    Option (PeriodicRun Q T W × Option Request) :=
  if s.actor.node.active then
    let (a, request, fires) := s.actor.canFire fsm check s.now
    if fires then do
      let (a, t) ← a.schedule b check
      return ({ s with actor := a, executing := some t }, request)
    else return ({ s with actor := a }, request)
  else return (s, none)

def step (b : Build) (fsm : RuntimeFSM Q T W) (product : Nat → ScTime → ScTime) (s : PeriodicRun Q T W) :
    PeriodicCall T W → Option (PeriodicRun Q T W × Option Request)
  | .wait time => if s.now ≤ time then some ({ s with now := time }, none) else none
  | .doReset check => some (s.told (s.actor.node.doReset fsm check))
  | .setUseActivationCallback check flag => some (s.told (s.actor.node.setUseActivationCallback fsm check flag))
  | .setActive check flag => (s.actor.node.setActive b fsm check flag).map s.told
  | .forceReexecution => some ({ s with actor := { s.actor with reexecute := true } }, none)
  | .stopPeriodicActorExecution => some ({ s with actor := { s.actor with periodicActorActive := false } }, none)
  | .restartPeriodicActorExecution => some ({ s with actor := { s.actor with periodicActorActive := true } }, none)
  | .signaled check e isActive =>
    if e ∈ s.actor.node.listening then do
      let r ← s.actor.node.signaled b fsm check e isActive
      let s' ← (s.told r).1.delivered b e
      return (s', (s.told r).2)
    else none
  | .scheduleRequest check => if s.executing.isNone then s.scheduleRequest b fsm check else none
  | .scheduleReturn check drawn fuel =>
    match s.executing with
    | some t => (s.actor.scheduleReturn product fsm check t s.now drawn fuel).map fun a =>
        ({ s with actor := a, executing := none }, none)
    | none => none

/-- A call with the states before and after it and the request that it makes. -/
structure Occurrence (Q T W : Type) where
  before : PeriodicRun Q T W
  call : PeriodicCall T W
  after : PeriodicRun Q T W
  request : Option Request

inductive Run (b : Build) (fsm : RuntimeFSM Q T W) (product : Nat → ScTime → ScTime) (s₀ : PeriodicRun Q T W) :
    List (Occurrence Q T W) → PeriodicRun Q T W → Prop
  | start : Run b fsm product s₀ [] s₀
  | call {log : List (Occurrence Q T W)} {s s' : PeriodicRun Q T W} {call : PeriodicCall T W} {request : Option Request}
      (h : Run b fsm product s₀ log s) (hs : s.step b fsm product call = some (s', request)) :
      Run b fsm product s₀ (log ++ [⟨s, call, s', request⟩]) s'

end PeriodicRun

end SysteMoC
