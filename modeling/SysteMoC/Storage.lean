import SysteMoC.Queue

/-!
# Token storage of a queue

`Storage`, `QueueWithStorage` over `QueueFRVWPtr` and `RingAccess`. A slot is
`none` while its `valid` flag is false.
-/

namespace SysteMoC

open Cyclic

/-- `defaultToken` is `T()` for default constructible tokens. Tokens without values are `void`. -/
class Token (T : Type) where
  defaultToken : Option T
  isVoid : Bool := false
  void_eq : isVoid = true → ∀ t t' : T, t = t' := by simp

instance : Token Nat where
  defaultToken := some 0

instance : Token Unit where
  defaultToken := some ()
  isVoid := true
  void_eq _ _ _ := rfl

abbrev Storage (T : Type) := Nat → Option T

namespace Storage

variable {T : Type}

/-- The non-const `get`: an invalid slot is default constructed on demand; a
token that has no default constructor fails the assertion. -/
def get [Token T] (st : Storage T) (i : Nat) : Option (T × Storage T) :=
  match st i with
  | some t => some (t, st)
  | none => (Token.defaultToken (T := T)).map fun t => (t, Function.update st i (some t))

def put (st : Storage T) (i : Nat) (t : T) : Storage T := Function.update st i (some t)

def invalidate (st : Storage T) (i : Nat) : Storage T := Function.update st i none

/-- The loop `for (; i < i + n; ++i) storage[i].invalidate()`. -/
def invalidateFrom (st : Storage T) : Nat → Nat → Storage T
  | _, 0 => st
  | i, n + 1 => (st.invalidate i).invalidateFrom (i + 1) n

/-- The two loops of `rpp`: `n` slots from `a` on, wrapping at `m`. -/
def clear (m : Nat) (st : Storage T) (a n : Nat) : Storage T :=
  (st.invalidateFrom a (min n (m - a))).invalidateFrom 0 (n - min n (m - a))

def putTokens (st : Storage T) : Nat → List T → Storage T
  | _, [] => st
  | j, t :: ts => (st.put j t).putTokens (j + 1) ts

end Storage

/-! ## Ring access -/

/-- Slot of `operator[](n)` for an access object at `ringOffset`. -/
def ringSlot (ringStorageSize ringOffset n : Nat) : Nat :=
  if ringOffset + n < ringStorageSize then ringOffset + n else ringOffset + n - ringStorageSize

def ringRead {T : Type} (b : Build) (ringLimit : Nat) (st : Storage T) (ringStorageSize ringOffset n : Nat) :
    Option T := do
  b.debugAssert (n < ringLimit)
  st (ringSlot ringStorageSize ringOffset n)

def ringWrite {T : Type} (b : Build) (ringLimit : Nat) (st : Storage T) (ringStorageSize ringOffset n : Nat)
    (t : T) : Option (Storage T) := do
  b.debugAssert (n < ringLimit)
  return st.put (ringSlot ringStorageSize ringOffset n) t

/-! ## Queue with storage -/

structure QueueWithStorage (T : Type) extends QueueFRVWPtr where
  storage : Storage T

namespace QueueWithStorage

variable {T : Type}

/-- `(pos + rIndex()) % qfSize()`; no loop ends after a position below -1. -/
def slot (q : QueueWithStorage T) (pos : Int) : Nat := add q.fsize q.rindex pos.toNat

/-- The inner loop of `moveTokensRight`, run `n` times; it also returns `dstPos`. -/
def shiftLoop [Token T] (q : QueueWithStorage T) : Nat → Storage T → Int → Int → Option (Storage T × Int)
  | 0, st, _, dstPos => some (st, dstPos)
  | n + 1, st, srcPos, dstPos => do
    let (t, st) ← st.get (q.slot srcPos)
    q.shiftLoop n ((st.put (q.slot dstPos) t).invalidate (q.slot srcPos)) (srcPos - 1) (dstPos - 1)

def rpp (b : Build) (q : QueueWithStorage T) (n : Nat) : Option (QueueWithStorage T) := do
  let o := min n (q.fsize - q.rindex)
  let p := n - o
  let st := q.storage.invalidateFrom q.rindex o
  b.assert (p = 0 ∨ q.rindex + o = q.fsize)
  let st := st.invalidateFrom 0 p
  let base ← q.toQueueFRVWPtr.rpp b n
  return { toQueueFRVWPtr := base, storage := st }

def resetQueue (b : Build) (q : QueueWithStorage T) : Option (QueueWithStorage T) := do
  let o := if q.rindex ≤ q.windex then q.windex else q.fsize
  let p := if q.rindex ≤ q.windex then 0 else q.windex
  let st := q.storage.invalidateFrom q.rindex (o - q.rindex)
  b.assert (p = 0 ∨ max q.rindex o = q.fsize)
  let st := st.invalidateFrom 0 p
  return { toQueueFRVWPtr := q.toQueueFRVWPtr.resetQueue, storage := st }

def wpp (b : Build) (q : QueueWithStorage T) (n : Nat) : Option (QueueWithStorage T) := do
  let base ← q.toQueueFRVWPtr.wpp b n
  return { q with toQueueFRVWPtr := base }

def vpp (b : Build) (q : QueueWithStorage T) (n : Nat) : Option (QueueWithStorage T) := do
  let base ← q.toQueueFRVWPtr.vpp b n
  return { q with toQueueFRVWPtr := base }

def fpp (b : Build) (q : QueueWithStorage T) (n : Nat) : Option (QueueWithStorage T) := do
  let base ← q.toQueueFRVWPtr.fpp b n
  return { q with toQueueFRVWPtr := base }

/-- `FifoStorage::doReset` up to the call of `BASE::doReset`. -/
def doReset (b : Build) (q : QueueWithStorage T) (initialTokens : List T) : Option (QueueWithStorage T) := do
  let q ← q.resetQueue b
  b.assert (initialTokens.length ≤ q.depthCount)
  let q := { q with storage := q.storage.putTokens 0 initialTokens }
  let q ← q.wpp b initialTokens.length
  q.vpp b initialTokens.length

end QueueWithStorage

end SysteMoC
