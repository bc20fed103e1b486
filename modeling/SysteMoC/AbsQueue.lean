import Mathlib.Data.List.Basic
import Mathlib.Logic.Function.Basic
import SysteMoC.Fifo
import SysteMoC.Pick

/-!
# The queue a FIFO is for

Four lists in the order of writing. A token moves from the pipeline to the
visible tokens when its latency expires, to the consumed ones when it is read,
and is released when its place is given back.
-/

namespace SysteMoC

/-- The operations of a run without resets and drops. -/
def FifoOp.Plain {T : Type} : FifoOp T → Prop
  | .entryFinish _ dropped => dropped = false
  | .doReset => False
  | _ => True

theorem FifoOp.Plain.fits {T ε : Type} [Token T] {ch : FifoChan T ε} {op : FifoOp T} (h : op.Plain) : ch.Fits op :=
  FifoChan.fits_of_kept fun k hk => by
    subst hk
    cases h

structure AbsQueue (T : Type) where
  /-- All tokens since the last reset, the initial ones first. -/
  written : List T
  released : List T
  consumed : List T
  visible : List T
  pipeline : List T
  /-- The tokens the writer has placed for coming commits. -/
  staged : Nat → Option T

namespace AbsQueue

variable {T : Type}

def initial (ts : List T) : AbsQueue T := ⟨ts, [], [], ts, [], fun _ => none⟩

def stagedPrefix (a : AbsQueue T) (k : Nat) : List T := Pick.tabulate a.staged k

def step (initialTokens : List T) (a : AbsQueue T) : FifoOp T → AbsQueue T
  | .write _ i t => { a with staged := Function.update a.staged i (some t) }
  | .entryStart k =>
    { a with
      written := a.written ++ a.stagedPrefix k
      pipeline := a.pipeline ++ a.stagedPrefix k
      staged := fun i => a.staged (i + k) }
  | .entryFinish k dropped =>
    { a with
      visible := if dropped then a.visible else a.visible ++ a.pipeline.take k
      pipeline := a.pipeline.drop k }
  | .outletStart k =>
    { a with
      consumed := a.consumed ++ a.visible.take k
      visible := a.visible.drop k }
  | .outletFinish k =>
    { a with
      released := a.released ++ a.consumed.take k
      consumed := a.consumed.drop k }
  | .doReset => initial initialTokens

/-- The tokens that are still in the queue or went through it. -/
def all (a : AbsQueue T) : List T := a.released ++ a.consumed ++ a.visible ++ a.pipeline

def Placed (a : AbsQueue T) : FifoOp T → Prop
  | .entryStart k => ∀ i < k, (a.staged i).isSome
  | _ => True

variable {a : AbsQueue T}

theorem all_eq_step {op : FifoOp T} {ts : List T} (h : a.all = a.written) (hp : op.Plain) :
    (a.step ts op).all = (a.step ts op).written := by
  cases op with
  | write limit i t => exact h
  | entryStart k => simpa only [step, all, ← List.append_assoc, List.append_cancel_right_eq] using h
  | entryFinish k dropped =>
    cases hp
    simpa only [step, all, Bool.false_eq_true, if_false, List.append_assoc, List.take_append_drop] using h
  | outletStart k =>
    simpa only [step, all, List.append_assoc, List.take_append_drop, ← List.append_assoc (List.take _ _)] using h
  | outletFinish k =>
    simpa only [step, all, List.append_assoc, List.take_append_drop, ← List.append_assoc (List.take _ _)] using h
  | doReset => cases hp

/-- What is in the queue came in through it, in that order. -/
theorem all_sublist_step {op : FifoOp T} {ts : List T} (h : a.all.Sublist a.written) :
    (a.step ts op).all.Sublist (a.step ts op).written := by
  cases op with
  | write limit i t => exact h
  | entryStart k =>
    simp only [step, all, ← List.append_assoc]
    exact List.Sublist.append h (List.Sublist.refl _)
  | entryFinish k dropped =>
    cases dropped with
    | false =>
      simpa only [step, all, Bool.false_eq_true, if_false, List.append_assoc, List.take_append_drop] using h
    | true =>
      apply List.Sublist.trans _ h
      simp only [step, all, if_true]
      exact List.Sublist.append (List.Sublist.refl _) (List.drop_sublist _ _)
  | outletStart k =>
    simpa only [step, all, List.append_assoc, List.take_append_drop, ← List.append_assoc (List.take _ _)] using h
  | outletFinish k =>
    simpa only [step, all, List.append_assoc, List.take_append_drop, ← List.append_assoc (List.take _ _)] using h
  | doReset => simp [step, all, initial]

end AbsQueue

end SysteMoC
