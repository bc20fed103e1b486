import Mathlib

/-!
# Time-triggered events

`EventQueue` of the actor library: a thread waits for the time of the queue's top,
of which it keeps a copy, and notifies what is due. Between two waits it runs alone.
-/

namespace SysteMoC

structure TimeEventPair (E : Type) where
  time : Nat
  event : E
deriving DecidableEq, Repr

/-- `std::priority_queue` by time. Which of the earliest pairs is on top is left open. -/
structure TimedQueue (E : Type) where
  elems : List (TimeEventPair E)
  top_le : ∀ c ∈ elems.head?, ∀ p ∈ elems, c.time ≤ p.time

namespace TimedQueue

variable {E : Type}

def empty : TimedQueue E := ⟨[], by simp⟩

def top (q : TimedQueue E) : Option (TimeEventPair E) := q.elems.head?

def Push (q : TimedQueue E) (p : TimeEventPair E) (q' : TimedQueue E) : Prop := q'.elems.Perm (p :: q.elems)

def Pop (q q' : TimedQueue E) : Prop := q'.elems.Perm q.elems.tail

theorem exists_perm (l : List (TimeEventPair E)) : ∃ q : TimedQueue E, q.elems.Perm l := by
  induction l with
  | nil => exact ⟨empty, .nil⟩
  | cons p l ih =>
    obtain ⟨⟨l', htop⟩, hperm⟩ := ih
    cases l' with
    | nil =>
      refine ⟨⟨[p], by simp⟩, ?_⟩
      rw [List.nil_perm.mp hperm]
    | cons c l' =>
      have htop' : ∀ x ∈ c :: l', c.time ≤ x.time := htop c rfl
      by_cases hle : c.time ≤ p.time
      · refine ⟨⟨c :: l' ++ [p], ?_⟩, (List.perm_append_singleton _ _).trans (hperm.cons p)⟩
        intro d hd x hx
        obtain rfl : c = d := by simpa using hd
        obtain hx | hx := List.mem_append.mp hx
        · exact htop' x hx
        · rw [List.mem_singleton.mp hx]
          exact hle
      · refine ⟨⟨p :: c :: l', ?_⟩, hperm.cons p⟩
        intro d hd x hx
        obtain rfl : p = d := by simpa using hd
        obtain rfl | hx := List.mem_cons.mp hx
        · exact Nat.le_refl _
        · have := htop' x hx
          omega

end TimedQueue

inductive Waiter where
  | start
  | outer
  /-- In `wait(toWait, wait_interrupt)`, which ends at the given time. -/
  | waiting (deadline : Nat) (interrupted : Bool)
  | inner
  /-- In `wait()`: the thread has no static sensitivity. -/
  | blocked
  /-- The top of an empty queue was read or removed. -/
  | failed
deriving DecidableEq, Repr

/-- The queue, its thread and the time, with what was registered and what was notified when. -/
structure EventQueue (E : Type) where
  now : Nat
  pqueue : TimedQueue E
  current : Option (TimeEventPair E)
  waiter : Waiter
  registered : List (TimeEventPair E)
  notified : List (Nat × TimeEventPair E)

def timeSub (a b : Nat) : Nat := if b ≤ a then a - b else a + 2 ^ 64 - b

namespace EventQueue

variable {E : Type}

def initial : EventQueue E where
  now := 0
  pqueue := TimedQueue.empty
  current := none
  waiter := .start
  registered := []
  notified := []

def interrupt : Waiter → Waiter
  | .waiting deadline _ => .waiting deadline true
  | w => w

/-- `registerEvent`, for the queue `q` after the push. -/
def registerEvent (s : EventQueue E) (p : TimeEventPair E) (q : TimedQueue E) : EventQueue E :=
  { s with
    pqueue := q
    registered := s.registered ++ [p]
    waiter := match s.current with
      | some c => if p.time < c.time then interrupt s.waiter else s.waiter
      | none => s.waiter }

def enter (s : EventQueue E) : EventQueue E :=
  match s.pqueue.top with
  | some pair =>
    { s with current := some pair, waiter := .waiting (s.now + timeSub pair.time s.now) false }
  | none => { s with current := none, waiter := .blocked }

def readTop (s : EventQueue E) : EventQueue E :=
  match s.pqueue.top with
  | some pair => { s with current := some pair }
  | none => { s with waiter := .failed }

/-- `pqueue.pop()`, for the queue `q` after it, and the entry into `notify` of the copy `c`. -/
def take (s : EventQueue E) (c : TimeEventPair E) (q : TimedQueue E) : EventQueue E :=
  { s with pqueue := q, notified := s.notified ++ [(s.now, c)] }

/-- An event registers further pairs, none of them for the past. -/
inductive Registers : EventQueue E → List (TimeEventPair E) → EventQueue E → Prop
  | nil (s : EventQueue E) : Registers s [] s
  | cons {s s' : EventQueue E} {p : TimeEventPair E} {ps : List (TimeEventPair E)} {q : TimedQueue E}
      (hp : s.now ≤ p.time) (hq : s.pqueue.Push p q) (h : Registers (s.registerEvent p q) ps s') :
      Registers s (p :: ps) s'

inductive Act (E : Type) where
  | register (p : TimeEventPair E)
  | elapse (time : Nat)
  | enter
  | wake
  | notify (ps : List (TimeEventPair E))
  | leave

/-- Other processes run while the thread does not. -/
def MayRegister : Waiter → Prop
  | .start | .waiting _ _ | .blocked => True
  | _ => False

/-- Time passes up to the end of the wait, unless the thread has been woken. -/
def MayElapse (t : Nat) : Waiter → Prop
  | .waiting deadline interrupted => interrupted = false ∧ t ≤ deadline
  | .blocked => True
  | _ => False

inductive Step : EventQueue E → Act E → EventQueue E → Prop
  | register {s : EventQueue E} {p : TimeEventPair E} {q : TimedQueue E} (hw : MayRegister s.waiter)
      (hp : s.now ≤ p.time) (hq : s.pqueue.Push p q) : Step s (.register p) (s.registerEvent p q)
  | elapse {s : EventQueue E} {t : Nat} (hw : MayElapse t s.waiter) (ht : s.now < t) :
      Step s (.elapse t) { s with now := t }
  | enter {s : EventQueue E} (hw : s.waiter = .start ∨ s.waiter = .outer) : Step s .enter s.enter
  | wake {s : EventQueue E} {deadline : Nat} {interrupted : Bool} (hw : s.waiter = .waiting deadline interrupted)
      (hd : interrupted = true ∨ s.now = deadline) : Step s .wake { s with waiter := .inner }
  | notify {s s' : EventQueue E} {c : TimeEventPair E} {q : TimedQueue E} {ps : List (TimeEventPair E)}
      (hw : s.waiter = .inner) (hc : s.current = some c) (hnow : c.time = s.now) (hne : s.pqueue.elems ≠ [])
      (hq : s.pqueue.Pop q) (hps : Registers (s.take c q) ps s') : Step s (.notify ps) s'.readTop
  | popEmpty {s : EventQueue E} {c : TimeEventPair E} (hw : s.waiter = .inner) (hc : s.current = some c)
      (hnow : c.time = s.now) (he : s.pqueue.elems = []) : Step s (.notify []) { s with waiter := .failed }
  | leave {s : EventQueue E} {c : TimeEventPair E} (hw : s.waiter = .inner) (hc : s.current = some c)
      (hnow : c.time ≠ s.now) : Step s .leave { s with waiter := .outer }

end EventQueue

end SysteMoC
