import SysteMoC.EventQueue

/-!
# Time-triggered events are notified once

The pairs registered so far are those notified and those queued, and none of the
queued ones is overdue. The thread must find its copy on top when it wakes, and the
queue must not run empty.
-/

namespace SysteMoC.EventQueue

variable {E : Type} {s s' : EventQueue E} {a : Act E} {p c : TimeEventPair E} {ps : List (TimeEventPair E)}
  {q : TimedQueue E}

/-- There is a pair when the thread looks at the queue first; whenever it notifies, its copy
is still on top, and either another pair is queued or the event registers one. -/
def Regular (s : EventQueue E) : Act E → Prop
  | .enter => s.pqueue.elems ≠ []
  | .notify ps => s.pqueue.top = s.current ∧ (s.pqueue.elems.length ≠ 1 ∨ ps ≠ [])
  | _ => True

def RegularStep (s s' : EventQueue E) : Prop := ∃ a, Regular s a ∧ Step s a s'

def Thread (s : EventQueue E) : Prop :=
  match s.waiter with
  | .start => True
  | .outer => s.pqueue.elems ≠ []
  | .waiting deadline interrupted =>
    s.pqueue.elems ≠ [] ∧ s.now ≤ deadline ∧ (∃ c, s.current = some c ∧ c.time = deadline) ∧
      (interrupted = false → ∀ p ∈ s.pqueue.elems, deadline ≤ p.time)
  | .inner => s.pqueue.elems ≠ [] ∧ ∃ c, s.current = some c
  | .blocked | .failed => False

structure Inv (s : EventQueue E) : Prop where
  accounted : s.registered.Perm (s.notified.map Prod.snd ++ s.pqueue.elems)
  stamped : ∀ e ∈ s.notified, e.1 = e.2.time
  ordered : (s.notified.map Prod.fst).Pairwise (· ≤ ·)
  past : ∀ e ∈ s.notified, e.1 ≤ s.now
  ahead : ∀ p ∈ s.pqueue.elems, s.now ≤ p.time
  thread : Thread s

theorem inv_initial : Inv (initial : EventQueue E) where
  accounted := .nil
  stamped := by simp [initial]
  ordered := .nil
  past := by simp [initial]
  ahead := by simp [initial, TimedQueue.empty]
  thread := trivial

/-! ## One step -/

theorem accounted_push (h : s.registered.Perm (s.notified.map Prod.snd ++ s.pqueue.elems)) (hq : s.pqueue.Push p q) :
    (s.registered ++ [p]).Perm (s.notified.map Prod.snd ++ q.elems) := by
  calc s.registered ++ [p]
    _ |>.Perm (s.notified.map Prod.snd ++ s.pqueue.elems ++ [p]) := h.append_right _
    _ |>.Perm (s.notified.map Prod.snd ++ q.elems) := by
      rw [List.append_assoc]
      exact ((List.perm_append_singleton p _).trans hq.symm).append_left _

theorem ahead_push {n : Nat} (h : ∀ p ∈ s.pqueue.elems, n ≤ p.time) (hp : n ≤ p.time) (hq : s.pqueue.Push p q) :
    ∀ p ∈ q.elems, n ≤ p.time := by
  intro x hx
  obtain rfl | hx := List.mem_cons.mp (hq.mem_iff.mp hx)
  · exact hp
  · exact h x hx

theorem ne_nil_push (hq : s.pqueue.Push p q) : q.elems ≠ [] := by
  intro hnil
  have := hq.length_eq
  rw [hnil] at this
  cases this

theorem Inv.register (h : Inv s) (hw : MayRegister s.waiter) (hp : s.now ≤ p.time) (hq : s.pqueue.Push p q) :
    Inv (s.registerEvent p q) := by
  refine ⟨accounted_push h.accounted hq, h.stamped, h.ordered, h.past, ahead_push h.ahead hp hq, ?_⟩
  have hthread := h.thread
  unfold Thread at hthread ⊢
  cases hs : s.waiter with
  | outer | inner | blocked | failed => simp_all [MayRegister]
  | start =>
    have : (s.registerEvent p q).waiter = .start := by
      simp only [registerEvent, hs, interrupt]
      split <;> simp
    rw [this]
    trivial
  | waiting deadline interrupted =>
    rw [hs] at hthread
    obtain ⟨_, hnow, ⟨c, hc, rfl⟩, hle⟩ := hthread
    have hwaiter : (s.registerEvent p q).waiter = .waiting c.time (interrupted || decide (p.time < c.time)) := by
      simp only [registerEvent, hc, hs, interrupt]
      by_cases hlt : p.time < c.time <;> simp [hlt]
    rw [hwaiter]
    refine ⟨ne_nil_push hq, hnow, ⟨c, hc, rfl⟩, fun hi => ?_⟩
    simp only [Bool.or_eq_false_iff, decide_eq_false_iff_not, Nat.not_lt] at hi
    exact ahead_push (hle hi.1) hi.2 hq

theorem Inv.elapse {t : Nat} (h : Inv s) (hw : MayElapse t s.waiter) (ht : s.now < t) : Inv { s with now := t } := by
  have hthread := h.thread
  unfold Thread at hthread
  cases hs : s.waiter with
  | start | outer | inner | failed => simp [hs, MayElapse] at hw
  | blocked => simp [hs] at hthread
  | waiting deadline interrupted =>
    rw [hs] at hthread hw
    obtain ⟨hne, hnow, hc, hle⟩ := hthread
    obtain ⟨rfl, ht'⟩ := hw
    refine ⟨h.accounted, h.stamped, h.ordered, fun e he => Nat.le_trans (h.past e he) (Nat.le_of_lt ht),
      fun p hp => Nat.le_trans ht' (hle rfl p hp), ?_⟩
    exact ⟨hne, ht', hc, hle⟩

theorem Inv.enter (h : Inv s) (hne : s.pqueue.elems ≠ []) : Inv s.enter := by
  obtain ⟨c, l, hl⟩ := List.exists_cons_of_ne_nil hne
  have hc : c ∈ s.pqueue.elems := by simp [hl]
  have htop : s.pqueue.top = some c := by simp [TimedQueue.top, hl]
  have hdeadline : s.now + timeSub c.time s.now = c.time := by
    have := h.ahead c hc
    simp [timeSub, this]
  have hs : s.enter = { s with current := some c, waiter := .waiting c.time false } := by
    simp [EventQueue.enter, htop, hdeadline]
  rw [hs]
  exact ⟨h.accounted, h.stamped, h.ordered, h.past, h.ahead, hne, h.ahead c hc, ⟨c, rfl, rfl⟩,
    fun _ => s.pqueue.top_le c (by simp [hl])⟩

theorem Inv.wake {deadline : Nat} {interrupted : Bool} (h : Inv s) (hw : s.waiter = .waiting deadline interrupted) :
    Inv { s with waiter := .inner } := by
  have hthread := h.thread
  unfold Thread at hthread
  rw [hw] at hthread
  obtain ⟨hne, _, ⟨c, hc, _⟩, _⟩ := hthread
  exact ⟨h.accounted, h.stamped, h.ordered, h.past, h.ahead, hne, c, hc⟩

theorem Registers.spec (h : Registers s ps s') (hw : s.waiter = .inner) :
    s'.now = s.now ∧ s'.current = s.current ∧ s'.waiter = .inner ∧ s'.notified = s.notified ∧
      s'.registered = s.registered ++ ps ∧ s'.pqueue.elems.Perm (ps ++ s.pqueue.elems) ∧ ∀ p ∈ ps, s.now ≤ p.time := by
  induction h with
  | nil => simp [hw]
  | @cons s s' p ps q hp hq h ih =>
    have hw' : (s.registerEvent p q).waiter = .inner := by
      simp only [registerEvent, hw, interrupt]
      split <;> simp
    obtain ⟨hnow, hcur, hw₁, hnot, hreg, hperm, hle⟩ := ih hw'
    refine ⟨hnow, hcur, hw₁, hnot, ?_, ?_, ?_⟩
    · rw [hreg]
      simp [registerEvent]
    · calc s'.pqueue.elems
        _ |>.Perm (ps ++ q.elems) := hperm
        _ |>.Perm (ps ++ p :: s.pqueue.elems) := hq.append_left _
        _ |>.Perm (p :: ps ++ s.pqueue.elems) := List.perm_middle
    · intro x hx
      obtain rfl | hx := List.mem_cons.mp hx
      · exact hp
      · exact hle x hx

theorem Inv.notify (h : Inv s) (hc : s.current = some c) (hnow : c.time = s.now) (hw : s.waiter = .inner)
    (hq : s.pqueue.Pop q) (hps : Registers (s.take c q) ps s') (hreg : Regular s (.notify ps)) : Inv s'.readTop := by
  obtain ⟨htop, hleft⟩ := hreg
  rw [hc] at htop
  obtain ⟨l, hl⟩ : ∃ l, s.pqueue.elems = c :: l := by
    cases hl : s.pqueue.elems with
    | nil => simp [TimedQueue.top, hl] at htop
    | cons d l =>
      simp only [TimedQueue.top, hl, List.head?_cons, Option.some.injEq] at htop
      exact ⟨l, by rw [htop]⟩
  have hql : q.elems.Perm l := by simpa [TimedQueue.Pop, hl] using hq
  obtain ⟨hnow', _, hw', hnot, hreg', hperm, hle⟩ := hps.spec hw
  have hqueue : s'.pqueue.elems.Perm (ps ++ l) := hperm.trans (hql.append_left _)
  have hahead : ∀ p ∈ s'.pqueue.elems, s.now ≤ p.time := by
    intro p hp
    obtain hp | hp := List.mem_append.mp (hqueue.mem_iff.mp hp)
    · exact hle p hp
    · exact h.ahead p (by simp [hl, hp])
  have hnotified : s'.notified = s.notified ++ [(s.now, c)] := hnot
  obtain ⟨d, l', hd⟩ : ∃ d l', s'.pqueue.elems = d :: l' := by
    apply List.exists_cons_of_ne_nil
    intro hnil
    have := hqueue.length_eq
    simp only [hnil, List.length_nil, List.length_append] at this
    obtain hlen | hps' := hleft
    · simp only [hl, List.length_cons] at hlen
      omega
    · exact hps' (List.length_eq_zero_iff.mp (by omega))
  have hread : s'.readTop = { s' with current := some d } := by simp [readTop, TimedQueue.top, hd]
  rw [hread]
  refine ⟨?_, ?_, ?_, ?_, ?_, ?_⟩
  · change s'.registered.Perm (s'.notified.map Prod.snd ++ s'.pqueue.elems)
    rw [hreg', hnotified]
    calc s.registered ++ ps
      _ |>.Perm (s.notified.map Prod.snd ++ (c :: l) ++ ps) := by
        rw [← hl]
        exact h.accounted.append_right _
      _ |>.Perm ((s.notified ++ [(s.now, c)]).map Prod.snd ++ (ps ++ l)) := by
        simp only [List.map_append, List.map_cons, List.map_nil, List.append_assoc, List.cons_append, List.nil_append]
        exact ((List.perm_append_comm).cons c).append_left _
      _ |>.Perm ((s.notified ++ [(s.now, c)]).map Prod.snd ++ s'.pqueue.elems) := hqueue.symm.append_left _
  · change ∀ e ∈ s'.notified, _
    rw [hnotified]
    intro e he
    obtain he | he := List.mem_append.mp he
    · exact h.stamped e he
    · rw [List.mem_singleton.mp he, hnow]
  · change (s'.notified.map Prod.fst).Pairwise _
    rw [hnotified, List.map_append, List.pairwise_append]
    refine ⟨h.ordered, by simp, ?_⟩
    intro t ht u hu
    obtain ⟨e, he, rfl⟩ := List.mem_map.mp ht
    rw [List.map_singleton, List.mem_singleton] at hu
    rw [hu]
    exact h.past e he
  · change ∀ e ∈ s'.notified, e.1 ≤ s'.now
    rw [hnotified, hnow']
    intro e he
    obtain he | he := List.mem_append.mp he
    · exact h.past e he
    · rw [List.mem_singleton.mp he]
      exact Nat.le_refl _
  · change ∀ p ∈ s'.pqueue.elems, s'.now ≤ p.time
    rw [hnow']
    exact hahead
  · unfold Thread
    rw [show ({ s' with current := some d } : EventQueue E).waiter = _ from hw']
    exact ⟨by simp [hd], d, rfl⟩

theorem Inv.step (h : Inv s) (hr : Regular s a) (hs : Step s a s') : Inv s' := by
  have hthread := h.thread
  unfold Thread at hthread
  cases hs with
  | register hw hp hq => exact h.register hw hp hq
  | elapse hw ht => exact h.elapse hw ht
  | enter hw => exact h.enter hr
  | wake hw hd => exact h.wake hw
  | notify hw hc hnow hne hq hps => exact h.notify hc hnow hw hq hps hr
  | popEmpty hw hc hnow he =>
    rw [hw] at hthread
    exact absurd he hthread.1
  | leave hw hc hnow =>
    rw [hw] at hthread
    exact ⟨h.accounted, h.stamped, h.ordered, h.past, h.ahead, hthread.1⟩

theorem Inv.run (hr : Relation.ReflTransGen RegularStep initial s) : Inv s := by
  induction hr with
  | refl => exact inv_initial
  | tail _ hstep ih =>
    obtain ⟨a, hreg, hs⟩ := hstep
    exact ih.step hreg hs

/-! ## Runs -/

theorem Inv.goes_on (h : Inv s) : ∃ a s', Step s a s' ∧ ∀ p, a ≠ .register p := by
  have hthread := h.thread
  unfold Thread at hthread
  cases hs : s.waiter with
  | start => exact ⟨.enter, _, .enter (.inl hs), by simp⟩
  | outer => exact ⟨.enter, _, .enter (.inr hs), by simp⟩
  | waiting deadline interrupted =>
    rw [hs] at hthread
    obtain ⟨_, hnow, _, _⟩ := hthread
    by_cases hwake : interrupted = true ∨ s.now = deadline
    · exact ⟨.wake, _, .wake hs hwake, by simp⟩
    · rw [not_or, Bool.not_eq_true] at hwake
      refine ⟨.elapse deadline, _, .elapse ?_ (by omega), by simp⟩
      rw [hs]
      exact ⟨hwake.1, Nat.le_refl _⟩
  | inner =>
    rw [hs] at hthread
    obtain ⟨hne, c, hc⟩ := hthread
    by_cases hnow : c.time = s.now
    · obtain ⟨q, hq⟩ := TimedQueue.exists_perm s.pqueue.elems.tail
      exact ⟨.notify [], _, .notify hs hc hnow hne hq (.nil _), by simp⟩
    · exact ⟨.leave, _, .leave hs hc hnow, by simp⟩
  | blocked | failed => simp [hs] at hthread

/-- In a run of regular steps no top of an empty queue is read or removed, every notification
comes at its time and none after a later one, and what is registered is notified once or
still to come. -/
theorem notified_once (hr : Relation.ReflTransGen RegularStep (initial : EventQueue E) s) :
    s.waiter ≠ .failed ∧ (∃ a s', Step s a s' ∧ ∀ p, a ≠ .register p) ∧
      (∀ e ∈ s.notified, e.1 = e.2.time) ∧ (s.notified.map Prod.fst).Pairwise (· ≤ ·) ∧
      ∃ pending, s.registered.Perm (s.notified.map Prod.snd ++ pending) ∧ ∀ p ∈ pending, s.now ≤ p.time := by
  have h := Inv.run hr
  refine ⟨fun hw => ?_, h.goes_on, h.stamped, h.ordered, _, h.accounted, h.ahead⟩
  have hthread := h.thread
  unfold Thread at hthread
  rwa [hw] at hthread

theorem notified_once_first :
    ∃ s : EventQueue Nat, s.now = 5 ∧ s.notified = [(5, ⟨5, 1⟩)] ∧ s.waiter ≠ .failed := by
  let q₁ : TimedQueue Nat := ⟨[⟨5, 1⟩], by simp⟩
  let q₂ : TimedQueue Nat := ⟨[⟨5, 1⟩, ⟨9, 2⟩], by simp⟩
  let q₃ : TimedQueue Nat := ⟨[⟨9, 2⟩], by simp⟩
  have h₁ : Relation.ReflTransGen RegularStep (initial : EventQueue Nat) (initial.registerEvent ⟨5, 1⟩ q₁) :=
    .single ⟨.register ⟨5, 1⟩, trivial, .register trivial (Nat.zero_le _) (.refl _)⟩
  have h₂ := h₁.tail ⟨.register ⟨9, 2⟩, trivial, .register (q := q₂) trivial (Nat.zero_le _) (.swap _ _ _)⟩
  have h₃ := h₂.tail ⟨.enter, by simp [Regular, registerEvent, q₂], .enter (.inl rfl)⟩
  have h₄ := h₃.tail ⟨.elapse 5, trivial, .elapse ⟨rfl, Nat.le_refl _⟩ (by decide)⟩
  have h₅ := h₄.tail ⟨.wake, trivial, .wake rfl (.inr rfl)⟩
  have h₆ := h₅.tail ⟨.notify [], ⟨rfl, .inl (by decide)⟩, .notify (c := ⟨5, 1⟩) (q := q₃) rfl rfl rfl
    (List.cons_ne_nil _ _) (.refl _) (.nil _)⟩
  exact ⟨_, rfl, rfl, (notified_once h₆).1⟩

def AnyStep (s s' : EventQueue E) : Prop := ∃ a, Step s a s'

/-- A pair of the same time registered during the wait may come on top: it is removed unseen
and the waiting pair is notified a second time. -/
theorem notified_twice :
    ∃ s : EventQueue Nat, Relation.ReflTransGen AnyStep initial s ∧ s.now = 6 ∧
      s.registered = [⟨5, 1⟩, ⟨9, 3⟩, ⟨5, 2⟩] ∧ s.notified = [(5, ⟨5, 1⟩), (5, ⟨5, 1⟩)] := by
  let q₁ : TimedQueue Nat := ⟨[⟨5, 1⟩], by simp⟩
  let q₂ : TimedQueue Nat := ⟨[⟨5, 1⟩, ⟨9, 3⟩], by simp⟩
  let q₃ : TimedQueue Nat := ⟨[⟨5, 2⟩, ⟨5, 1⟩, ⟨9, 3⟩], by simp⟩
  let q₄ : TimedQueue Nat := ⟨[⟨9, 3⟩], by simp⟩
  have h₁ : Relation.ReflTransGen AnyStep (initial : EventQueue Nat) (initial.registerEvent ⟨5, 1⟩ q₁) :=
    .single ⟨.register ⟨5, 1⟩, .register trivial (Nat.zero_le _) (.refl _)⟩
  have h₂ := h₁.tail ⟨.register ⟨9, 3⟩, .register (q := q₂) trivial (Nat.zero_le _) (.swap _ _ _)⟩
  have h₃ := h₂.tail ⟨.enter, .enter (.inl rfl)⟩
  have h₄ := h₃.tail ⟨.register ⟨5, 2⟩, .register (q := q₃) trivial (Nat.zero_le _) (.refl _)⟩
  have h₅ := h₄.tail ⟨.elapse 5, .elapse ⟨rfl, Nat.le_refl _⟩ (by decide)⟩
  have h₆ := h₅.tail ⟨.wake, .wake rfl (.inr rfl)⟩
  have h₇ := h₆.tail ⟨.notify [], .notify (c := ⟨5, 1⟩) (q := q₂) rfl rfl rfl (List.cons_ne_nil _ _) (.refl _) (.nil _)⟩
  have h₈ := h₇.tail ⟨.notify [], .notify (c := ⟨5, 1⟩) (q := q₄) rfl rfl rfl (List.cons_ne_nil _ _) (.refl _) (.nil _)⟩
  have h₉ := h₈.tail ⟨.leave, .leave (c := ⟨9, 3⟩) rfl rfl (by decide)⟩
  have h₁₀ := h₉.tail ⟨.enter, .enter (.inr rfl)⟩
  have h₁₁ := h₁₀.tail ⟨.elapse 6, .elapse ⟨rfl, by decide⟩ (by decide)⟩
  exact ⟨_, h₁₁, rfl, rfl, rfl⟩

/-- After the last notification the top of the empty queue is read. -/
theorem queue_runs_empty :
    ∃ s : EventQueue Nat, Relation.ReflTransGen AnyStep initial s ∧ s.registered = [⟨5, 1⟩] ∧ s.waiter = .failed := by
  let q₁ : TimedQueue Nat := ⟨[⟨5, 1⟩], by simp⟩
  have h₁ : Relation.ReflTransGen AnyStep (initial : EventQueue Nat) (initial.registerEvent ⟨5, 1⟩ q₁) :=
    .single ⟨.register ⟨5, 1⟩, .register trivial (Nat.zero_le _) (.refl _)⟩
  have h₂ := h₁.tail ⟨.enter, .enter (.inl rfl)⟩
  have h₃ := h₂.tail ⟨.elapse 5, .elapse ⟨rfl, Nat.le_refl _⟩ (by decide)⟩
  have h₄ := h₃.tail ⟨.wake, .wake rfl (.inr rfl)⟩
  have h₅ := h₄.tail ⟨.notify [], .notify (c := ⟨5, 1⟩) (q := TimedQueue.empty) rfl rfl rfl (List.cons_ne_nil _ _)
    (.refl _) (.nil _)⟩
  exact ⟨_, h₅, rfl, rfl⟩

/-! ### Steps that are not regular -/

/-- With a step that is not regular the thread blocks, reads an empty queue or loses a pair. -/
theorem irregular_breaks (h : Inv s) (hs : Step s a s') (hr : ¬ Regular s a) :
    s'.waiter = .blocked ∨ s'.waiter = .failed ∨
      ¬ s'.registered.Perm (s'.notified.map Prod.snd ++ s'.pqueue.elems) := by
  cases hs with
  | register | elapse | wake | leave => exact absurd trivial hr
  | popEmpty => exact .inr (.inl rfl)
  | enter hw =>
    have he : s.pqueue.elems = [] := by simpa [Regular] using hr
    left
    simp [EventQueue.enter, TimedQueue.top, he]
  | @notify s₁ c q ps hw hc hnow hne hq hps =>
    obtain ⟨d, l, hl⟩ := List.exists_cons_of_ne_nil hne
    obtain ⟨_, _, _, hnot, hreg, hperm, _⟩ := hps.spec hw
    have hql : q.elems.Perm l := by simpa [TimedQueue.Pop, hl] using hq
    right
    cases hd : s₁.pqueue.top with
    | none =>
      left
      simp [readTop, hd]
    | some e =>
      right
      intro hlost
      have hread : s₁.readTop = { s₁ with current := some e } := by simp [readTop, hd]
      rw [hread] at hlost
      change s₁.registered.Perm (s₁.notified.map Prod.snd ++ s₁.pqueue.elems) at hlost
      rw [hreg, show s₁.notified = s.notified ++ [(s.now, c)] from hnot, List.map_append, List.append_assoc] at hlost
      have hqueue : s₁.pqueue.elems.Perm (l ++ ps) :=
        hperm.trans ((hql.append_left _).trans List.perm_append_comm)
      have hsame : (s.notified.map Prod.snd ++ ([d] ++ (l ++ ps))).Perm
          (s.notified.map Prod.snd ++ ([c] ++ (l ++ ps))) := by
        calc s.notified.map Prod.snd ++ ([d] ++ (l ++ ps))
          _ = s.notified.map Prod.snd ++ s.pqueue.elems ++ ps := by simp [hl]
          _ |>.Perm (s.registered ++ ps) := h.accounted.symm.append_right _
          _ |>.Perm (s.notified.map Prod.snd ++ ([c] ++ s₁.pqueue.elems)) := hlost
          _ |>.Perm (s.notified.map Prod.snd ++ ([c] ++ (l ++ ps))) := (hqueue.append_left _).append_left _
      -- the removed pair is the notified one, so the queue has run empty
      obtain rfl : d = c := by
        have := (List.perm_append_right_iff _).mp ((List.perm_append_left_iff _).mp hsame)
        simpa using this
      apply hr
      refine ⟨by simp [TimedQueue.top, hl, hc], ?_⟩
      by_contra hlast
      rw [not_or, not_not, not_not] at hlast
      obtain ⟨hlen, rfl⟩ := hlast
      rw [hl, List.length_cons, Nat.add_eq_right, List.length_eq_zero_iff] at hlen
      rw [hlen] at hqueue
      simp [TimedQueue.top, List.perm_nil.mp hqueue] at hd

end SysteMoC.EventQueue
