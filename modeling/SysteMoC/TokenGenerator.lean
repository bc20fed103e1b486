import Mathlib.Algebra.Order.Group.Int
import SysteMoC.Storage

/-!
# Generators of token positions

A generator yields positions relative to `rIndex()` in descending order and then -1.
The tokens there are removed and the others move to the right. Positions and counts
are of type `int`, sizes of type `size_t`.
-/

namespace SysteMoC

def toInt (n : Nat) : Int := (n : Int).bmod (2 ^ 32)

def toSize (n : Int) : Nat := (n % (2 ^ 64 : Nat)).toNat

/-- The answer of `popMax` and the generator after the call, and `count`. -/
class TokenGenerator (G : Type) where
  popMax : G → Int × G
  count : G → Int

structure InvalidateTokenGenerator where
  n : Int

/-- Counting on below the least `int`, which is undefined, never leads back to -1. -/
instance : TokenGenerator InvalidateTokenGenerator where
  popMax g := (g.n - 1, ⟨g.n - 1⟩)
  count g := g.n

structure DropRInvisibleWrapGenerator (G : Type) where
  g : G
  offset : Nat

instance {G : Type} [TokenGenerator G] : TokenGenerator (DropRInvisibleWrapGenerator G) where
  popMax w :=
    let result := (TokenGenerator.popMax w.g).1
    (if 0 ≤ result then toInt (result.toNat + w.offset) else result, { w with g := (TokenGenerator.popMax w.g).2 })
  count w := TokenGenerator.count w.g

namespace TokenGenerator

@[simp] theorem popMax_invalidate (n : Int) : popMax (⟨n⟩ : InvalidateTokenGenerator) = (n - 1, ⟨n - 1⟩) := rfl

theorem popMax_wrap {G : Type} [TokenGenerator G] (g : G) (offset : Nat) :
    (popMax (⟨g, offset⟩ : DropRInvisibleWrapGenerator G)).1 =
      if 0 ≤ (popMax g).1 then toInt ((popMax g).1.toNat + offset) else (popMax g).1 := rfl

@[simp] theorem count_invalidate (n : Int) : count (⟨n⟩ : InvalidateTokenGenerator) = n := rfl

@[simp] theorem count_wrap {G : Type} [TokenGenerator G] (g : G) (offset : Nat) :
    count (⟨g, offset⟩ : DropRInvisibleWrapGenerator G) = count g := rfl

variable {G T : Type} [TokenGenerator G] [Token T]

def moveLoop (q : QueueWithStorage T) : Nat → G → Storage T → Int → Int → Option (Storage T × Int)
  | 0, _, _, _, _ => none
  | fuel + 1, g, st, srcPos, dstPos =>
    if srcPos = -1 then some (st, dstPos + 1) else do
      let npos := (popMax g).1
      let n := (srcPos - 1 - npos).toNat
      let (st, dstPos) ← q.shiftLoop n (st.invalidate (q.slot srcPos)) (srcPos - 1) dstPos
      moveLoop q fuel (popMax g).2 st (srcPos - 1 - n) dstPos

/-- Removes the tokens at the positions of the generator and returns their number. -/
def moveTokensRight (fuel : Nat) (q : QueueWithStorage T) (g : G) : Option (Storage T × Int) :=
  let srcPos := (popMax g).1
  moveLoop q fuel (popMax g).2 q.storage srcPos srcPos

end TokenGenerator

namespace QueueWithStorage

variable {G T : Type} [TokenGenerator G] [Token T]

/-- `moveTokensRight` for `void` only counts. The storage, which the code does not have then,
loses the tokens at `rIndex()`: all tokens are the same. -/
def moveTokensRightVoid (q : QueueWithStorage T) (g : G) : Storage T × Int :=
  (q.storage.clear q.fsize q.rindex (toSize (TokenGenerator.count g)), TokenGenerator.count g)

/-- The positions of the generator lie in the pipeline area. A loop that needs more rounds than
there are positions does not end before `srcPos` is below the least `int`. -/
def dropRInvisible (b : Build) (q : QueueWithStorage T) (g : G) : Option (QueueWithStorage T) := do
  let w : DropRInvisibleWrapGenerator G := ⟨g, q.visibleCount⟩
  let (st, n) ← if Token.isVoid T then some (q.moveTokensRightVoid w)
    else TokenGenerator.moveTokensRight ((TokenGenerator.count w).toNat + 1) q w
  let base ← q.toQueueFRVWPtr.dropRInvisible b (toSize n)
  return { toQueueFRVWPtr := base, storage := st }

end QueueWithStorage

/-- The number of dropped tokens and their positions behind `v` visible ones survive `int`. -/
def DropFits (T : Type) [Token T] (v n : Nat) : Prop :=
  if Token.isVoid T then toSize (toInt n) = n else n = 0 ∨ n < 2 ^ 31 ∧ v + n ≤ 2 ^ 31

instance (T : Type) [Token T] (v n : Nat) : Decidable (DropFits T v n) := by unfold DropFits; infer_instance

end SysteMoC
