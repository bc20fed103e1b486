import SysteMoC.EventMap
import SysteMoC.Storage

/-!
# Multiplex FIFO

One ring shared by virtual FIFOs. A token belongs to the virtual FIFO whose id
is its colour; an outlet may take tokens out of the first `fifoOutOfOrder + 1`
visible ones.
-/

namespace SysteMoC

open Cyclic

class ColorAccessor (T : Type) where
  get : T → Nat
  put : T → Nat → T

/-! Pairs of a colour and a value, as in the test designs. -/

instance : ColorAccessor (Nat × Int) := ⟨Prod.fst, fun t c => (c, t.2)⟩

instance : Token (Nat × Int) where
  defaultToken := some (0, 0)

/-! ## Virtual outlets -/

structure VOutlet (ε : Type) where
  countAvailable : Nat
  emmAvailable : EventMapManager ε

namespace VOutlet

variable {ε : Type} [SmocEvent ε]

def moreData (o : VOutlet ε) (n : Nat) : VOutlet ε where
  countAvailable := o.countAvailable + n
  emmAvailable := o.emmAvailable.increasedCount (o.countAvailable + n)

def reset (o : VOutlet ε) : VOutlet ε where
  countAvailable := 0
  emmAvailable := o.emmAvailable.reset

end VOutlet

abbrev VOutletMap (ε : Type) := List (Nat × VOutlet ε)

namespace VOutletMap

variable {ε : Type}

def modify (m : VOutletMap ε) (fifoId : Nat) (f : VOutlet ε → VOutlet ε) : VOutletMap ε :=
  m.map fun p => if p.1 = fifoId then (p.1, f p.2) else p

/-- `vOutlets.find(fifoId)->second->moreData(1)`; the iterator must not be the end. -/
def moreData [SmocEvent ε] (m : VOutletMap ε) (fifoId : Nat) : Option (VOutletMap ε) := do
  let _ ← m.lookup fifoId
  return m.modify fifoId (·.moreData 1)

end VOutletMap

/-! ## The channel -/

structure MultiplexFifoChan (T ε : Type) extends QueueWithStorage T where
  initialTokens : List T
  fifoOutOfOrder : Nat
  emmFree : EventMapManager ε
  emmAvailable : EventMapManager ε
  vOutlets : VOutletMap ε

namespace MultiplexFifoChan

variable {T ε : Type}

def new (b : Build) (n m : Nat) (initialTokens : List T) (fifoIds : List Nat) : Option (MultiplexFifoChan T ε) := do
  b.assert (m + 1 ≤ (QueueFRVWPtr.ofDepth n).depthCount)
  return {
    toQueueFRVWPtr := QueueFRVWPtr.ofDepth n
    storage := fun _ => none
    initialTokens := initialTokens
    fifoOutOfOrder := m
    emmFree := EventMapManager.empty
    emmAvailable := EventMapManager.empty
    vOutlets := fifoIds.map fun fifoId => (fifoId, ⟨0, EventMapManager.empty⟩) }

def withQueue (ch : MultiplexFifoChan T ε) (q : QueueWithStorage T) : MultiplexFifoChan T ε :=
  { ch with toQueueWithStorage := q }

variable [Token T] [ColorAccessor T]

/-! ### The loops of `consume` -/

def skipLoop (b : Build) (q : QueueWithStorage T) (color : Nat) :
    Nat → Storage T → Nat → Nat → Option (Storage T × Nat)
  | 0, _, _, _ => none
  | fuel + 1, st, mc, dindex =>
    if mc > 1 then do
      b.assert (Between q.fsize dindex q.rindex (sub q.fsize q.vindex 1))
      let (t, st) ← st.get dindex
      skipLoop b q color fuel st (if ColorAccessor.get t = color then mc - 1 else mc) (add q.fsize dindex 1)
    else some (st, dindex)

def seekLoop (b : Build) (q : QueueWithStorage T) (color : Nat) :
    Nat → Storage T → Nat → Option (Storage T × Nat)
  | 0, _, _ => none
  | fuel + 1, st, dindex => do
    let (t, st) ← st.get dindex
    if ColorAccessor.get t ≠ color then do
      b.assert (Between q.fsize dindex q.rindex (sub q.fsize q.vindex 1))
      seekLoop b q color fuel st (add q.fsize dindex 1)
    else some (st, dindex)

def gatherLoop (b : Build) (q : QueueWithStorage T) (color : Nat) :
    Nat → Storage T → Nat → Nat → Option (Storage T)
  | 0, _, _, _ => none
  | fuel + 1, st, sindex, dindex =>
    if sindex = q.rindex then some st else do
      let sindex := sub q.fsize sindex 1
      b.assert (Between q.fsize sindex q.rindex (sub q.fsize dindex 1))
      let (t, st) ← st.get sindex
      if ColorAccessor.get t ≠ color then
        gatherLoop b q color fuel (st.put dindex t) sindex (sub q.fsize dindex 1)
      else gatherLoop b q color fuel st sindex dindex

/-- The part of `consume` under `if (n > 0)`. The fuel lets the first loop go
round the ring `n` times: one without a token of the colour does not end. -/
def takeOut (b : Build) (q : QueueWithStorage T) (color n : Nat) : Option (Storage T) :=
  if n > 0 then do
    let (st, dindex) ← skipLoop b q color (n * q.fsize + 1) q.storage n q.rindex
    let (st, dindex) ← seekLoop b q color q.fsize st dindex
    gatherLoop b q color q.fsize st dindex dindex
  else some q.storage

/-! ### Operations -/

variable [SmocEvent ε]

def announceLoop (ch : MultiplexFifoChan T ε) : Nat → Nat → Nat → Option (MultiplexFifoChan T ε)
  | 0, _, _ => none
  | fuel + 1, xindex, oindex =>
    if xindex = oindex then some ch else do
      let (t, st) ← ch.storage.get xindex
      let vOutlets ← ch.vOutlets.moreData (ColorAccessor.get t)
      announceLoop { ch with storage := st, vOutlets := vOutlets } fuel (add ch.fsize xindex 1) oindex

def latencyExpired (b : Build) (ch : MultiplexFifoChan T ε) (n : Nat) : Option (MultiplexFifoChan T ε) := do
  let q ← ch.toQueueWithStorage.vpp b n
  let ch := ch.withQueue q
  let vcount := ch.visibleCount
  b.assert (n ≤ vcount)
  if ch.vOutlets ≠ [] then
    let xindex := add ch.fsize ch.rindex (min (ch.fifoOutOfOrder + 1) (sizeSub vcount n))
    let oindex := add ch.fsize ch.rindex (min (ch.fifoOutOfOrder + 1) vcount)
    ch.announceLoop ch.fsize xindex oindex
  else
    return { ch with emmAvailable := ch.emmAvailable.increasedCount vcount }

def consume (b : Build) (ch : MultiplexFifoChan T ε) (color n : Nat) : Option (MultiplexFifoChan T ε) := do
  let st ← takeOut b ch.toQueueWithStorage color n
  let q ← { ch.toQueueWithStorage with storage := st }.rpp b n
  let ch := ch.withQueue q
  let ch := { ch with emmAvailable := ch.emmAvailable.decreasedCount ch.visibleCount }
  let vcount := ch.visibleCount
  let xindex := add ch.fsize ch.rindex (min (sizeSub (ch.fifoOutOfOrder + 1) n) vcount)
  let oindex := add ch.fsize ch.rindex (min (ch.fifoOutOfOrder + 1) vcount)
  ch.announceLoop ch.fsize xindex oindex

def readConsumeEventExpired (b : Build) (ch : MultiplexFifoChan T ε) (n : Nat) : Option (MultiplexFifoChan T ε) := do
  let q ← ch.toQueueWithStorage.fpp b n
  let ch := ch.withQueue q
  return { ch with emmFree := ch.emmFree.increasedCount ch.freeCount }

def doReset (b : Build) (ch : MultiplexFifoChan T ε) : Option (MultiplexFifoChan T ε) := do
  let q ← ch.toQueueWithStorage.doReset b ch.initialTokens
  let ch := ch.withQueue q
  let emmAvailable := ch.emmAvailable.reset
  let ch := { ch with
    emmFree := ch.emmFree.reset.increasedCount ch.freeCount
    emmAvailable := if ch.vOutlets = [] then emmAvailable.increasedCount ch.visibleCount else emmAvailable }
  if ch.vOutlets ≠ [] then
    let vOutlets := ch.vOutlets.map fun p => (p.1, p.2.reset)
    let vOutlets ← ch.initialTokens.foldlM (fun m t => VOutletMap.moreData m (ColorAccessor.get t)) vOutlets
    return { ch with vOutlets := vOutlets }
  else return ch

end MultiplexFifoChan

/-! ## Entries and outlets -/

namespace MultiplexFifoEntry

variable {T ε : Type} [SmocEvent ε]

def commStart (b : Build) (ch : MultiplexFifoChan T ε) (produce : Nat) : Option (MultiplexFifoChan T ε) := do
  let q ← ch.toQueueWithStorage.wpp b produce
  let ch := ch.withQueue q
  return { ch with emmFree := ch.emmFree.decreasedCount ch.freeCount }

def numFree (ch : MultiplexFifoChan T ε) : Nat := ch.freeCount

variable [Token T] [ColorAccessor T]

def commFinish (b : Build) (ch : MultiplexFifoChan T ε) (produce : Nat) (dropped : Bool) :
    Option (MultiplexFifoChan T ε) := do
  b.assert (dropped = false)
  ch.latencyExpired b produce

end MultiplexFifoEntry

namespace MultiplexVFifoEntry

variable {T ε : Type} [SmocEvent ε]

/-- `operator[](i) = t` of the entry's access; the plain entry's `RingAccess` does
the same. -/
def write (b : Build) (ch : MultiplexFifoChan T ε) (limit i : Nat) (t : T) : Option (MultiplexFifoChan T ε) := do
  let st ← ringWrite b limit ch.storage ch.fsize ch.windex i t
  return { ch with storage := st }

variable [Token T] [ColorAccessor T]

def colorLoop (fsize fifoId : Nat) : Nat → Storage T → Nat → Option (Storage T)
  | 0, st, _ => some st
  | k + 1, st, windex => do
    let (t, st) ← st.get windex
    let windex' := if windex + 1 ≥ fsize then windex + 1 - fsize else windex + 1
    colorLoop fsize fifoId k (st.put windex (ColorAccessor.put t fifoId)) windex'

def commStart (b : Build) (ch : MultiplexFifoChan T ε) (fifoId produce : Nat) : Option (MultiplexFifoChan T ε) := do
  let st ← colorLoop ch.fsize fifoId produce ch.storage ch.windex
  MultiplexFifoEntry.commStart b { ch with storage := st } produce

end MultiplexVFifoEntry

namespace MultiplexVFifoOutlet

variable {T ε : Type} [SmocEvent ε] [Token T] [ColorAccessor T]

def numAvailable (ch : MultiplexFifoChan T ε) (fifoId : Nat) : Option Nat :=
  (ch.vOutlets.lookup fifoId).map (·.countAvailable)

def commStart (b : Build) (ch : MultiplexFifoChan T ε) (fifoId consume : Nat) : Option (MultiplexFifoChan T ε) := do
  let o ← ch.vOutlets.lookup fifoId
  b.assert (consume ≤ o.countAvailable)
  let countAvailable := sizeSub o.countAvailable consume
  let ch := { ch with vOutlets := ch.vOutlets.modify fifoId fun o =>
    ⟨countAvailable, o.emmAvailable.decreasedCount countAvailable⟩ }
  ch.consume b fifoId consume

def commFinish (b : Build) (ch : MultiplexFifoChan T ε) (consume : Nat) (dropped : Bool) :
    Option (MultiplexFifoChan T ε) := do
  b.assert (dropped = false)
  ch.readConsumeEventExpired b consume

def readLoop (fsize fifoId : Nat) : Nat → Storage T → Nat → Nat → Option (T × Storage T)
  | 0, _, _, _ => none
  | fuel + 1, st, rindex, n => do
    let (t, st) ← st.get rindex
    if n ≥ 1 ∨ ColorAccessor.get t ≠ fifoId then
      readLoop fsize fifoId fuel st (if rindex < fsize - 1 then rindex + 1 else 0)
        (if ColorAccessor.get t = fifoId then n - 1 else n)
    else some (t, st)

def read (b : Build) (ch : MultiplexFifoChan T ε) (fifoId limit n : Nat) : Option (T × MultiplexFifoChan T ε) := do
  b.debugAssert (n < limit)
  let (t, st) ← readLoop ch.fsize fifoId ((n + 1) * ch.fsize) ch.storage ch.rindex n
  return (t, { ch with storage := st })

end MultiplexVFifoOutlet

/-! ## Runs -/

inductive MultiplexOp (T : Type) where
  | write (entry : Option Nat) (limit i : Nat) (t : T)
  | entryStart (entry : Option Nat) (k : Nat)
  | entryFinish (k : Nat)
  | outletStart (fifoId k : Nat)
  | outletFinish (k : Nat)

namespace MultiplexFifoChan

variable {T ε : Type}

def step [Token T] [ColorAccessor T] [SmocEvent ε] (b : Build) (ch : MultiplexFifoChan T ε) :
    MultiplexOp T → Option (MultiplexFifoChan T ε)
  | .write _ limit i t => MultiplexVFifoEntry.write b ch limit i t
  | .entryStart none k => MultiplexFifoEntry.commStart b ch k
  | .entryStart (some fifoId) k => MultiplexVFifoEntry.commStart b ch fifoId k
  | .entryFinish k => MultiplexFifoEntry.commFinish b ch k false
  | .outletStart fifoId k => MultiplexVFifoOutlet.commStart b ch fifoId k
  | .outletFinish k => MultiplexVFifoOutlet.commFinish b ch k false

/-- A start is covered by `numFree` or `numAvailable`, a finish by what is started. -/
def Guarded (ch : MultiplexFifoChan T ε) : MultiplexOp T → Prop
  | .write _ limit i _ => i < limit ∧ i < ch.freeCount
  | .entryStart _ k => k ≤ ch.freeCount
  | .entryFinish k => k ≤ sub ch.fsize ch.windex ch.vindex
  | .outletStart fifoId k => ∃ o, ch.vOutlets.lookup fifoId = some o ∧ k ≤ o.countAvailable
  | .outletFinish k => k ≤ sub ch.fsize ch.rindex ch.findex

end MultiplexFifoChan

end SysteMoC
