import Mathlib.Algebra.Order.BigOperators.Group.Finset
import Mathlib.Data.Prod.Lex
import SysteMoC.Assertions
import SysteMoC.Determinacy
import SysteMoC.Inevitable

/-!
# Simulations that end

A firing that has begun ends, whatever listener is told next, and where one order of
the requests comes to an end all orders do.
-/

namespace SysteMoC

open Liveness (Inevitable)

/-- The simulator does it by itself. -/
def Label.Internal {A K Z : Type} : Label A K Z → Prop
  | .deliver _ _ | .call | .run _ | .step => True
  | _ => False

def Control.work {A K Z T D : Type} : Control A K Z T D → Nat
  | .executing _ _ todo => todo.length + 1
  | _ => 0

def Control.isActing {A K Z T D : Type} : Control A K Z T D → Bool
  | .acting _ _ => true
  | _ => false

namespace Network

variable {A K Z Q T V D : Type} [DecidableEq A] [DecidableEq K] [DecidableEq Z] [DecidableEq Q] [Token D] [Fintype A]
  {net : Network A K Z Q T V D} {b : Build} {chans : K → FifoChan D Bool} {vars : A → V} {s s' : Simulation A K Z Q T V D}
  {m : Marking A K Q V D} {a : A} {t : T} {e : Finset (NetEvent K Z)} {l : Label A K Z}

/-! ## What is left of a firing -/

def left (s : NetState A K Z Q T V D) : ℕ ×ₗ ℕ ×ₗ ℕ :=
  toLex (s.control.work, toLex (s.calls.length, ∑ a, (s.signals a).card))

omit [DecidableEq Q] [Token D] in
theorem left_deliver (he : e ∈ s.signals a) (hi : (s.nodes a).Idle (net.fsm a)) (hs : net.deliver b a e s = some s') :
    s'.control = s.control ∧ left s'.toNetState < left s.toNetState := by
  obtain ⟨n, sent, _, rfl⟩ := deliver_cases hi hs
  simp only [Simulation.notifyActivation_toNetState, Simulation.setNode_toNetState, logSearch_toNetState]
  refine ⟨trivial, Prod.Lex.toLex_lt_toLex.mpr (.inr ⟨rfl, Prod.Lex.toLex_lt_toLex.mpr (.inr ⟨rfl, ?_⟩)⟩)⟩
  refine Finset.sum_lt_sum (fun a' _ => ?_) ⟨a, Finset.mem_univ a, ?_⟩
  · by_cases ha : a' = a
    · subst ha
      simp only [Function.update_self]
      exact Finset.card_erase_le
    · exact Nat.le_of_eq (congrArg Finset.card (Function.update_of_ne ha _ _))
  · simp only [Function.update_self]
    exact Finset.card_erase_lt_of_mem he

omit [DecidableEq A] [DecidableEq Q] [Token D] in
theorem left_call (hs : nextCall s = some s') : s'.control = s.control ∧ left s'.toNetState < left s.toNetState := by
  unfold nextCall at hs
  split at hs
  · cases hs
  · rename_i c calls hcalls
    cases hs
    refine ⟨rfl, Prod.Lex.toLex_lt_toLex.mpr (.inr ⟨rfl, Prod.Lex.toLex_lt_toLex.mpr (.inl ?_)⟩)⟩
    simp only [hcalls, List.length_cons, Nat.lt_succ_self]

theorem left_doTask {task : Task A K Z D} {todo : List (Task A K Z D)} (h : Refines net chans s.toNetState m)
    (hc : s.control = .executing a t (task :: todo)) (hs : net.doTask b a t task todo s = some s') :
    s'.control.isExecuting = true ∧ left s'.toNetState < left s.toNetState := by
  have hcontrol : s'.control = .executing a t todo := by
    cases task with
    | op k o =>
      obtain ⟨s₁, hop, heq⟩ := Option.bind_eq_some_iff.mp hs
      obtain ⟨ch, _, rfl⟩ := chanOp_cases hop
      cases heq
      rfl
    | copy k k' n =>
      obtain ⟨⟨head, ch⟩, _, heq⟩ := Option.bind_eq_some_iff.mp hs
      cases heq
      rfl
    | produce | reset =>
      obtain ⟨_, _, _, hperforms, _⟩ := h.queues
      rw [hc] at hperforms
      cases hperforms with
      | cons hfits => exact hfits.elim
  refine ⟨by rw [hcontrol]; rfl, Prod.Lex.toLex_lt_toLex.mpr (.inl ?_)⟩
  rw [hcontrol, hc]
  exact Nat.lt_succ_self _

omit [Token D] in
theorem left_finish (hc : s.control = .executing a t []) : left (net.finish b a t s).toNetState < left s.toNetState := by
  refine Prod.Lex.toLex_lt_toLex.mpr (.inl ?_)
  rw [hc]
  exact Nat.lt_succ_self _

/-! ## The steps of the simulator -/

/-- Between firings, with all listeners told. -/
def AtLoop (s : Simulation A K Z Q T V D) : Prop :=
  s.Settled ∧ (s.control = .idle ∨ ∃ a, s.control = .polling a)

/-- The steps the simulator makes by itself. -/
def Goes (net : Network A K Z Q T V D) (b : Build) : Simulation A K Z Q T V D → Simulation A K Z Q T V D → Prop :=
  net.StepOf b fun _ l => l.Internal

/-- While something is left there is a step. -/
theorem Refines.goes (h : Refines net chans s.toNetState m) (hinv : Inv net b s.toNetState) (htold : Told s)
    (hkeeping : b.debug = true → Keeping net b s.toNetState) (hl : Turn s l) (hint : l.Internal) : ∃ s', Goes net b s s' := by
  obtain ⟨s', hs⟩ := Option.isSome_iff_exists.mp (h.step_isSome (b := b) hinv htold hkeeping hl)
  exact ⟨s', l, hint, hs⟩

omit [DecidableEq A] [DecidableEq K] [DecidableEq Z] [DecidableEq Q] [Token D] [Fintype A] in
theorem turn_of_not_settled (h : ¬ s.Settled) : (∃ a e, Turn s (.deliver a e)) ∨ Turn s .call := by
  by_cases hsig : ∀ a, s.signals a = ∅
  · exact .inr ⟨hsig, fun hcalls => h ⟨hcalls, hsig⟩⟩
  · obtain ⟨a, ha⟩ := not_forall.mp hsig
    obtain ⟨e, he⟩ := Finset.nonempty_iff_ne_empty.mpr ha
    exact .inl ⟨a, e, he⟩

/-- The steps the simulator makes, and what is left after them. -/
inductive Went (s s' : Simulation A K Z Q T V D) : Label A K Z → Prop where
  | told {l : Label A K Z} (hs : ¬ s.Settled) (hc : s'.control = s.control) (hl : left s'.toNetState < left s.toNetState)
      (hw : ∀ (m : Move A K T), m ∉ emits s.toNetState l) : Went s s' l
  | task (hs : s.Settled) (hc : s.control.isExecuting = true) (hc' : s'.control.isActing = false)
      (hl : left s'.toNetState < left s.toNetState) : Went s s' .step
  | act {a : A} {t : T} (hs : s.Settled) (hc : s.control = .acting a t) (hc' : s'.control.isActing = false) : Went s s' .step
  | poll {a : A} (hs : s.Settled) (hc : s.control = .polling a) (hc' : s'.control.isPolling = false)
      (hl : left s'.toNetState = left s.toNetState) (hr : s'.request = s.request) : Went s s' .step
  | run {a : A} (hs : s.Settled) (hc : s.control = .idle) (hr : s.request a = true)
      (h : s' = { s with request := Function.update s.request a false, control := .polling a }) : Went s s' (.run a)

omit [DecidableEq Q] [Token D] [Fintype A] in
theorem Polled.request (h : Polled net b a s s') : s'.request = s.request := by
  cases h with
  | inactive => rfl
  | done => exact logSearch_request
  | @fire n =>
    show (net.logFire b a n s).request = _
    unfold logFire
    split
    · exact logSearch_request
    · exact logSearch_request

theorem Refines.went (h : Refines net chans s.toNetState m) (hinv : Inv net b s.toNetState) (hl : l.Internal)
    (hs : net.step b s l = some s') : Went s s' l := by
  cases l with
  | deliver a e =>
    obtain ⟨he, hs⟩ := Option.ite_none_right_eq_some.mp hs
    obtain ⟨hc, hleft⟩ := left_deliver he (hinv.idle a) hs
    refine .told (fun hset => ?_) hc hleft (by simp [emits])
    rw [hset.2 a] at he
    cases he
  | call =>
    obtain ⟨_, hs⟩ := Option.ite_none_right_eq_some.mp hs
    obtain ⟨hc, hleft⟩ := left_call hs
    refine .told (fun hset => ?_) hc hleft (by simp [emits])
    rw [nextCall, hset.1] at hs
    cases hs
  | run a =>
    obtain ⟨⟨hset, hidle, hreq⟩, hs⟩ := Option.ite_none_right_eq_some.mp hs
    exact .run hset (Control.eq_idle hidle) hreq (Option.some.inj hs).symm
  | step =>
    obtain ⟨hset, hs⟩ := Option.ite_none_right_eq_some.mp hs
    unfold Network.proceed at hs
    split at hs
    · cases hs
    · rename_i a hc
      refine .poll hset hc ?_ ?_ ?_
      · cases poll_cases hs with
        | inactive | done | fire => rfl
      · cases poll_cases hs with
        | inactive =>
          rw [left, left, hc]
          rfl
        | done =>
          simp only [left, Simulation.setNode_toNetState, logPoll_toNetState, hc]
          rfl
        | fire =>
          simp only [left, Simulation.setNode_toNetState, logFire_toNetState, hc]
          rfl
      · exact (poll_cases hs).request
    · rename_i a t hc
      cases hs
      exact .act hset hc rfl
    · rename_i hc
      cases hs
      exact .task hset (by rw [hc]; rfl) rfl (left_finish hc)
    · rename_i hc
      obtain ⟨hexec, hleft⟩ := left_doTask h hc hs
      refine .task hset (by rw [hc]; rfl) ?_ hleft
      cases hcontrol : s'.control with
      | idle | polling | executing => rfl
      | acting =>
        rw [hcontrol] at hexec
        cases hexec
  | reset | setActive | setUseActivationCallback => exact hl.elim

/-! ## Firings that end -/

omit [DecidableEq A] [DecidableEq K] [DecidableEq Z] [DecidableEq Q] [Token D] [Fintype A] in
theorem emits_step (hc : s.control.isActing = false) : (emits s.toNetState .step : List (Move A K T)) = [] := by
  cases hcontrol : s.control with
  | idle | polling | executing =>
    rw [emits, hcontrol]
  | acting =>
    rw [hcontrol] at hc
    cases hc

theorem callbackDriven_step (hinv : Inv net b s.toNetState) (hl : l.Internal) (hs : net.step b s l = some s') (a : A) :
    (s'.nodes a).callbackDriven = (s.nodes a).callbackDriven := by
  have hone : ∀ {n : NodeBase Q T (Finset (NetEvent K Z))} {a₀ : A}, n.callbackDriven = (s.nodes a₀).callbackDriven →
      (Function.update s.nodes a₀ n a).callbackDriven = (s.nodes a).callbackDriven := by
    intro n a₀ hn
    by_cases ha : a = a₀
    · subst ha
      rw [Function.update_self]
      exact hn
    · rw [Function.update_of_ne ha]
  cases step_cases hinv.idle hs with
  | silent h => rw [h.nodes]
  | delivered _ hn =>
    simp only [Simulation.notifyActivation_toNetState, Simulation.setNode_toNetState, logSearch_toNetState]
    refine hone ?_
    cases hn with
    | executing | activated | deactivated | ignored => rfl
  | reset _ _ _ _ hn =>
    simp only [Simulation.notifyActivation_toNetState, Simulation.setNode_toNetState, logSearch_toNetState]
    exact hone hn.callbackDriven
  | switched hflag =>
    obtain ⟨flag, rfl | rfl⟩ := hflag
    · exact hl.elim
    · exact hl.elim
  | run => rfl
  | polled _ _ hp =>
    cases hp with
    | inactive => rfl
    | done _ hn =>
      simp only [Simulation.setNode_toNetState, logPoll_toNetState]
      refine hone ?_
      rcases canFire_cases hn with rfl | ⟨_, rfl⟩
      · rfl
      · rfl
    | fire _ hn =>
      simp only [Simulation.setNode_toNetState, logFire_toNetState]
      refine hone ?_
      rcases canFire_cases hn with rfl | ⟨_, rfl⟩
      · rfl
      · rfl
  | finished _ hc =>
    simp only [Network.finish, Simulation.setNode_toNetState, logSearch_toNetState]
    exact hone ((hinv.idle _).scheduleReturn _ _).callbackDriven

def requests (s : Simulation A K Z Q T V D) : Nat :=
  2 * (Finset.univ.filter fun a => s.request a = true).card + if s.control.isPolling then 1 else 0

omit [DecidableEq K] [DecidableEq Z] [DecidableEq Q] [Token D] in
theorem requests_run (hc : s.control = .idle) (hr : s.request a = true) :
    requests { s with request := Function.update s.request a false, control := .polling a } < requests s := by
  have herase : (Finset.univ.filter fun a' => Function.update s.request a false a' = true) =
      (Finset.univ.filter fun a' => s.request a' = true).erase a := by
    ext a'
    by_cases ha : a' = a
    · simp [ha]
    · simp [ha]
  have hmem : a ∈ Finset.univ.filter fun a' => s.request a' = true := Finset.mem_filter.mpr ⟨Finset.mem_univ a, hr⟩
  have hcard := Finset.card_erase_lt_of_mem hmem
  simp only [requests, herase, hc, Control.isPolling, Bool.false_eq_true, if_false, if_true]
  omega

variable [DecidableEq T]

/-- The firings that are left of `n` after the resets, and the steps before the next one. -/
def Rest (net : Network A K Z Q T V D) (b : Build) (s₀ : Simulation A K Z Q T V D) (rs : List (Move A K T)) (n : Nat)
    (r : ℕ ×ₗ (ℕ ×ₗ ℕ ×ₗ ℕ) ×ₗ ℕ) (s : Simulation A K Z Q T V D) : Prop :=
  ∃ fs : List (A × T), Run net b s₀ (rs ++ fs.map fun f => .fire f.1 f.2) s ∧
    (∀ a, (s.nodes a).callbackDriven = true) ∧ r = toLex (n - fs.length, toLex (left s.toNetState, requests s))

theorem Rest.step {rs : List (Move A K T)} {n : Nat} {fs : List (A × T)} (hreg : net.Regular) (hbuilt : net.Elaborated b chans)
    (hbound : ∀ {fs : List (A × T)} {s}, Run net b (start chans vars) (rs ++ fs.map fun f => .fire f.1 f.2) s → fs.length ≤ n)
    (hr : Run net b (start chans vars) (rs ++ fs.map fun f => .fire f.1 f.2) s)
    (hd : ∀ a, (s.nodes a).callbackDriven = true) (hl : l.Internal) (hs : net.step b s l = some s') :
    ∃ r', r' < toLex (n - fs.length, toLex (left s.toNetState, requests s)) ∧ Rest net b (start chans vars) rs n r' s' := by
  obtain ⟨hinv, _, m, _, h⟩ := hr.refines hreg hbuilt
  have hd' : ∀ a, (s'.nodes a).callbackDriven = true := fun a => (callbackDriven_step hinv hl hs a).trans (hd a)
  have hr' := hr.step hs
  have hsame : (emits s.toNetState l : List (Move A K T)) = [] →
      toLex (left s'.toNetState, requests s') < toLex (left s.toNetState, requests s) →
        ∃ r', r' < toLex (n - fs.length, toLex (left s.toNetState, requests s)) ∧
          Rest net b (start chans vars) rs n r' s' := by
    intro hnone hlt
    rw [hnone, List.append_nil] at hr'
    exact ⟨toLex (n - fs.length, toLex (left s'.toNetState, requests s')), Prod.Lex.toLex_lt_toLex.mpr (.inr ⟨rfl, hlt⟩),
      fs, hr', hd', rfl⟩
  cases h.went hinv hl hs with
  | told hset hc hleft hw =>
    exact hsame (List.eq_nil_iff_forall_not_mem.mpr hw) (Prod.Lex.toLex_lt_toLex.mpr (.inl hleft))
  | task hset hc hc' hleft =>
    refine hsame (emits_step ?_) (Prod.Lex.toLex_lt_toLex.mpr (.inl hleft))
    cases hcontrol : s.control with
    | idle | polling | executing => rfl
    | acting =>
      rw [hcontrol] at hc
      cases hc
  | act hset hc hc' =>
    rename_i a t
    have hemits : (emits s.toNetState .step : List (Move A K T)) = [.fire a t] := by rw [emits, hc]
    have hfired : Run net b (start chans vars) (rs ++ (fs ++ [(a, t)]).map fun f => .fire f.1 f.2) s' := by
      rw [hemits] at hr'
      simpa using hr'
    have hle := hbound hfired
    rw [List.length_append, List.length_singleton] at hle
    refine ⟨_, Prod.Lex.toLex_lt_toLex.mpr (.inl ?_), _, hfired, hd', rfl⟩
    rw [List.length_append, List.length_singleton]
    omega
  | poll hset hc hc' hleft hreq =>
    refine hsame (emits_step (by rw [hc]; rfl)) (Prod.Lex.toLex_lt_toLex.mpr (.inr ⟨hleft, ?_⟩))
    rw [requests, requests, hreq, hc, hc']
    exact Nat.lt_succ_self _
  | run hset hc hreq heq =>
    subst heq
    refine hsame rfl (Prod.Lex.toLex_lt_toLex.mpr (.inr ⟨?_, requests_run hc hreq⟩))
    rw [left, left, hc]
    rfl

end Network

end SysteMoC
