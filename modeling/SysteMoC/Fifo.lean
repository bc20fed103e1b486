import SysteMoC.EventMap
import SysteMoC.TokenGenerator

/-!
# FIFO channel

`FifoChan` with the entry and the outlet that ports use. A channel without
token values is a `FifoChan` of a one-element type.
-/

namespace SysteMoC

open Cyclic

structure FifoChan (T ε : Type) extends QueueWithStorage T where
  initialTokens : List T
  emmData : EventMapManager ε
  emmSpace : EventMapManager ε
  tokenId : UInt64

namespace FifoChan

variable {T ε : Type}

def new (n : Nat) (initialTokens : List T) : FifoChan T ε where
  toQueueFRVWPtr := QueueFRVWPtr.ofDepth n
  storage _ := none
  initialTokens := initialTokens
  emmData := EventMapManager.empty
  emmSpace := EventMapManager.empty
  tokenId := 0

def withQueue (ch : FifoChan T ε) (q : QueueWithStorage T) : FifoChan T ε := { ch with toQueueWithStorage := q }

def invalidateToken [Token T] (b : Build) (ch : FifoChan T ε) (n : Nat) : Option (FifoChan T ε) := do
  let q ← ch.toQueueWithStorage.dropRInvisible b (⟨toInt n⟩ : InvalidateTokenGenerator)
  return ch.withQueue q

variable [SmocEvent ε]

def latencyExpired (b : Build) (ch : FifoChan T ε) (n : Nat) : Option (FifoChan T ε) := do
  let q ← ch.toQueueWithStorage.vpp b n
  let ch := ch.withQueue q
  return { ch with emmData := ch.emmData.increasedCount ch.visibleCount }

def latencyExpired_dropped [Token T] (b : Build) (ch : FifoChan T ε) (n : Nat) : Option (FifoChan T ε) := do
  let ch ← ch.invalidateToken b n
  return { ch with emmSpace := ch.emmSpace.increasedCount ch.freeCount }

def readConsumeEventExpired (b : Build) (ch : FifoChan T ε) (n : Nat) : Option (FifoChan T ε) := do
  let q ← ch.toQueueWithStorage.fpp b n
  let ch := ch.withQueue q
  return { ch with emmSpace := ch.emmSpace.increasedCount ch.freeCount }

def doReset (b : Build) (ch : FifoChan T ε) : Option (FifoChan T ε) := do
  let q ← ch.toQueueWithStorage.doReset b ch.initialTokens
  let ch := ch.withQueue q
  return { ch with
    emmSpace := ch.emmSpace.reset.increasedCount ch.freeCount
    emmData := ch.emmData.reset.increasedCount ch.visibleCount }

end FifoChan

namespace FifoEntry

variable {T ε : Type} [SmocEvent ε]

def commStart (b : Build) (ch : FifoChan T ε) (produce : Nat) : Option (FifoChan T ε) := do
  let ch := { ch with tokenId := ch.tokenId + UInt64.ofNat produce }
  let q ← ch.toQueueWithStorage.wpp b produce
  let ch := ch.withQueue q
  return { ch with emmSpace := ch.emmSpace.decreasedCount ch.freeCount }

def commFinish [Token T] (b : Build) (ch : FifoChan T ε) (produce : Nat) (dropped : Bool) : Option (FifoChan T ε) :=
  if !dropped then ch.latencyExpired b produce else ch.latencyExpired_dropped b produce

def spaceAvailableEvent (b : Build) (ch : FifoChan T ε) (n : Nat) : Option (FifoChan T ε) := do
  let em ← ch.emmSpace.getEvent b n
  return { ch with emmSpace := em }

def numFree (ch : FifoChan T ε) : Nat := ch.freeCount

def outTokenId (ch : FifoChan T ε) : UInt64 := ch.tokenId

def write (b : Build) (ch : FifoChan T ε) (limit i : Nat) (t : T) : Option (FifoChan T ε) := do
  let st ← ringWrite b limit ch.storage ch.fsize ch.windex i t
  return { ch with storage := st }

end FifoEntry

namespace FifoOutlet

variable {T ε : Type} [SmocEvent ε]

def commStart (b : Build) (ch : FifoChan T ε) (consume : Nat) : Option (FifoChan T ε) := do
  let q ← ch.toQueueWithStorage.rpp b consume
  let ch := ch.withQueue q
  return { ch with emmData := ch.emmData.decreasedCount ch.visibleCount }

def commFinish (b : Build) (ch : FifoChan T ε) (consume : Nat) (dropped : Bool) : Option (FifoChan T ε) := do
  b.assert (dropped = false)
  ch.readConsumeEventExpired b consume

theorem commFinish_eq {b : Build} {ch : FifoChan T ε} {consume : Nat} :
    commFinish b ch consume false = ch.readConsumeEventExpired b consume := by
  rw [commFinish, b.assert_of rfl]
  rfl

def dataAvailableEvent (b : Build) (ch : FifoChan T ε) (n : Nat) : Option (FifoChan T ε) := do
  let em ← ch.emmData.getEvent b n
  return { ch with emmData := em }

def numAvailable (ch : FifoChan T ε) : Nat := ch.visibleCount

def inTokenId (ch : FifoChan T ε) : UInt64 := ch.tokenId - UInt64.ofNat ch.usedCount

def read (b : Build) (ch : FifoChan T ε) (limit i : Nat) : Option T :=
  ringRead b limit ch.storage ch.fsize ch.rindex i

end FifoOutlet

/-! ## Runs -/

inductive FifoOp (T : Type) where
  | write (limit i : Nat) (t : T)
  | entryStart (k : Nat)
  | entryFinish (k : Nat) (dropped : Bool)
  | outletStart (k : Nat)
  | outletFinish (k : Nat)
  | doReset

namespace FifoChan

variable {T ε : Type}

/-- The number of tokens whose latency has not expired. -/
def pipelineCount (ch : FifoChan T ε) : Nat := sub ch.fsize ch.windex ch.vindex

def consumingCount (ch : FifoChan T ε) : Nat := sub ch.fsize ch.rindex ch.findex

def step [Token T] [SmocEvent ε] (b : Build) (ch : FifoChan T ε) : FifoOp T → Option (FifoChan T ε)
  | .write limit i t => FifoEntry.write b ch limit i t
  | .entryStart k => FifoEntry.commStart b ch k
  | .entryFinish k dropped => FifoEntry.commFinish b ch k dropped
  | .outletStart k => FifoOutlet.commStart b ch k
  | .outletFinish k => FifoOutlet.commFinish b ch k false
  | .doReset => ch.doReset b

/-- A start is covered by `numFree` or `numAvailable`, a finish by what is started. -/
def Guarded (ch : FifoChan T ε) : FifoOp T → Prop
  | .write limit i _ => i < limit ∧ i < FifoEntry.numFree ch
  | .entryStart k => k ≤ FifoEntry.numFree ch
  | .entryFinish k _ => k ≤ ch.pipelineCount
  | .outletStart k => k ≤ FifoOutlet.numAvailable ch
  | .outletFinish k => k ≤ ch.consumingCount
  | .doReset => True

instance (ch : FifoChan T ε) : DecidablePred (ch.Guarded (T := T)) := fun op => by
  cases op <;> unfold Guarded <;> infer_instance

/-- What a dropped commit drops fits an `int`. -/
def Fits [Token T] (ch : FifoChan T ε) : FifoOp T → Prop
  | .entryFinish k true => DropFits T ch.visibleCount k
  | _ => True

theorem fits_of_kept [Token T] {ch : FifoChan T ε} {op : FifoOp T} (h : ∀ k, op ≠ .entryFinish k true) : ch.Fits op := by
  unfold Fits
  split
  · exact absurd rfl (h _)
  · trivial

def GuardedStep [Token T] [SmocEvent ε] (b : Build) (ch ch' : FifoChan T ε) : Prop :=
  ∃ op, ch.Guarded op ∧ ch.Fits op ∧ ch.step b op = some ch'

end FifoChan

inductive EventRequest where
  | data (n : Nat)
  | space (n : Nat)

def FifoChan.request {T ε : Type} [SmocEvent ε] (b : Build) (ch : FifoChan T ε) : EventRequest → Option (FifoChan T ε)
  | .data n => FifoOutlet.dataAvailableEvent b ch n
  | .space n => FifoEntry.spaceAvailableEvent b ch n

end SysteMoC
