import SysteMoC.DataflowConfluent
import SysteMoC.InFlight
import SysteMoC.NetworkDataflow

/-!
# Networks under a coupled simulator

A simulator that is coupled to the library schedules the actors in its own order. Of a
firing it calls `commStart` of the ports, and `commFinish` of the channels when the time
of each commit has come.
-/

namespace SysteMoC

open FifoChan (Uses Embodies SameConfig)

/-- With the commits that have been started and not been finished. -/
structure Coupled (A K Z Q T V D : Type) extends Simulation A K Z Q T V D where
  started : List (Commit K)

inductive CoupledLabel (A K Z : Type) where
  | lib (l : Label A K Z)
  | commFinish (c : Commit K)

def Control.mayFinish {A K Z T D : Type} : Control A K Z T D → Bool
  | .idle | .executing _ _ _ => true
  | _ => false

namespace Network

variable {A K Z Q T V D : Type} [DecidableEq A] [DecidableEq K] [DecidableEq Z] [DecidableEq Q] [Token D]

/-- The call of the action; what `executeFiringRule` does then finishes no commit. -/
def coupledAct (net : Network A K Z Q T V D) (b : Build) (a : A) (t : T) (s : Simulation A K Z Q T V D) :
    Simulation A K Z Q T V D :=
  let (v, writes) := net.action a t (s.vars a) (s.tokens b (net.rule a t))
  { s with
    vars := Function.update s.vars a v
    control := .executing a t ((net.rule a t).tasksOf A true writes) }

/-- The next step of `schedule`, after which it is up to the simulator what comes next. -/
def coupledProceed (net : Network A K Z Q T V D) (b : Build) (s : Coupled A K Z Q T V D) : Option (Coupled A K Z Q T V D) :=
  match s.control with
  | .idle | .polling _ => none
  | .acting a t => some { s with toSimulation := net.coupledAct b a t s.toSimulation }
  | .executing a t [] => some { s with toSimulation := { net.finish b a t s.toSimulation with control := .idle } }
  | .executing a t (task :: todo) => do
    let s' ← net.doTask b a t task todo s.toSimulation
    return { toSimulation := s', started := task.starts ++ s.started }

variable [Fintype A]

/-- Channels are reset before anything is started. -/
def coupledStep (net : Network A K Z Q T V D) (b : Build) (s : Coupled A K Z Q T V D) :
    CoupledLabel A K Z → Option (Coupled A K Z Q T V D)
  | .lib (.run a) =>
    if s.Settled ∧ s.control.isIdle = true then
      (net.poll b a { s.toSimulation with control := .polling a }).map fun s' => { s with toSimulation := s' }
    else none
  | .lib .step => if s.Settled then net.coupledProceed b s else none
  | .lib (.reset r) =>
    if s.started = [] then (net.step b s.toSimulation (.reset r)).map fun s' => { s with toSimulation := s' } else none
  | .lib l => (net.step b s.toSimulation l).map fun s' => { s with toSimulation := s' }
  | .commFinish c =>
    if c ∈ s.started ∧ s.Settled ∧ s.control.mayFinish = true then do
      let s' ← net.chanOp b c.chan c.commFinish s.toNetState
      return { s with toNetState := s', started := s.started.erase c }
    else none

variable {net : Network A K Z Q T V D} {b : Build} {chans : K → FifoChan D Bool} {s s' : Coupled A K Z Q T V D}
  {m m' : Marking A K Q V D} {l : CoupledLabel A K Z} {a : A} {t : T}

/-- What a step of a coupled network is. -/
inductive CoupledStepped (net : Network A K Z Q T V D) (b : Build) (s : Coupled A K Z Q T V D) :
    CoupledLabel A K Z → Coupled A K Z Q T V D → Prop where
  | told {l : Label A K Z} {s' : Simulation A K Z Q T V D} (hl : l.Tells) (hs : net.step b s.toSimulation l = some s') :
      CoupledStepped net b s (.lib l) { s with toSimulation := s' }
  | reset {r} {s' : Simulation A K Z Q T V D} (hstarted : s.started = []) (hs : net.step b s.toSimulation (.reset r) = some s') :
      CoupledStepped net b s (.lib (.reset r)) { s with toSimulation := s' }
  | polled {a : A} {s' : Simulation A K Z Q T V D} (hset : s.Settled) (hc : s.control = .idle)
      (hp : net.poll b a { s.toSimulation with control := .polling a } = some s') :
      CoupledStepped net b s (.lib (.run a)) { s with toSimulation := s' }
  | acted {a : A} {t : T} (hset : s.Settled) (hc : s.control = .acting a t) :
      CoupledStepped net b s (.lib .step) { s with toSimulation := net.coupledAct b a t s.toSimulation }
  | finished {a : A} {t : T} (hset : s.Settled) (hc : s.control = .executing a t []) :
      CoupledStepped net b s (.lib .step) { s with toSimulation := { net.finish b a t s.toSimulation with control := .idle } }
  | done {a : A} {t : T} {task : Task A K Z D} {todo} {s' : Simulation A K Z Q T V D} (hset : s.Settled)
      (hc : s.control = .executing a t (task :: todo)) (ht : net.doTask b a t task todo s.toSimulation = some s') :
      CoupledStepped net b s (.lib .step) { toSimulation := s', started := task.starts ++ s.started }
  | commFinished {c : Commit K} {s' : NetState A K Z Q T V D} (hmem : c ∈ s.started) (hset : s.Settled)
      (hc : s.control.mayFinish = true) (ho : net.chanOp b c.chan c.commFinish s.toNetState = some s') :
      CoupledStepped net b s (.commFinish c) { s with toNetState := s', started := s.started.erase c }

theorem coupledStep_cases (h : net.coupledStep b s l = some s') : CoupledStepped net b s l s' := by
  cases l with
  | lib l =>
    cases l with
    | deliver | call | setActive | setUseActivationCallback =>
      obtain ⟨s₁, hs, rfl⟩ := Option.map_eq_some_iff.mp h
      exact .told trivial hs
    | reset r =>
      obtain ⟨hstarted, h⟩ := Option.ite_none_right_eq_some.mp h
      obtain ⟨s₁, hs, rfl⟩ := Option.map_eq_some_iff.mp h
      exact .reset hstarted hs
    | run a =>
      obtain ⟨⟨hset, hidle⟩, h⟩ := Option.ite_none_right_eq_some.mp h
      obtain ⟨s₁, hp, rfl⟩ := Option.map_eq_some_iff.mp h
      exact .polled hset (Control.eq_idle hidle) hp
    | step =>
      obtain ⟨hset, h⟩ := Option.ite_none_right_eq_some.mp h
      unfold coupledProceed at h
      split at h
      · cases h
      · cases h
      · rename_i hc
        cases h
        exact .acted hset hc
      · rename_i hc
        cases h
        exact .finished hset hc
      · rename_i hc
        obtain ⟨s₁, ht, heq⟩ := Option.bind_eq_some_iff.mp h
        cases heq
        exact .done hset hc ht
  | commFinish c =>
    obtain ⟨⟨hmem, hset, hc⟩, h⟩ := Option.ite_none_right_eq_some.mp h
    obtain ⟨s₁, ho, heq⟩ := Option.bind_eq_some_iff.mp h
    cases heq
    exact .commFinished hmem hset hc ho

/-! ## What is cached -/

def search (net : Network A K Z Q T V D) (b : Build) (s : NetState A K Z Q T V D) (a : A) : Option T :=
  (s.nodes a).currentState.bind fun q => (net.transitions a q).find? (net.check b s a)

omit [DecidableEq A] [DecidableEq Q] [Token D] [Fintype A] in
theorem search_eq {s s' : NetState A K Z Q T V D} (hc : s'.chans = s.chans) (hs : s'.sae = s.sae) (hv : s'.vars = s.vars)
    (hn : (s'.nodes a).currentState = (s.nodes a).currentState) : net.search b s' a = net.search b s a := by
  have hcheck : net.check b s' a = net.check b s a := by
    funext t
    simp only [check, isActive_congr hc hs, NetState.tokens, hc, hv]
  rw [search, search, hcheck, hn]

/-- Actors that have not been reset have no transition cached. -/
def Blank (s : Simulation A K Z Q T V D) : Prop := ∀ a, (s.nodes a).currentState = none → (s.nodes a).ct = none

omit [DecidableEq K] [DecidableEq Z] [DecidableEq Q] [Token D] [Fintype A] in
theorem Blank.update {s s' : Simulation A K Z Q T V D} (h : Blank s) {n : NodeBase Q T (Finset (NetEvent K Z))}
    (hs : s'.nodes = Function.update s.nodes a n) (hn : n.currentState = none → n.ct = none) : Blank s' := by
  intro a'
  rw [hs]
  by_cases ha : a' = a
  · subst ha
    rw [Function.update_self]
    exact hn
  · rw [Function.update_of_ne ha]
    exact h a'

omit [Token D] [Fintype A] in
theorem Blank.stepped {s s' : Simulation A K Z Q T V D} {l : Label A K Z} (h : Blank s)
    (hi : ∀ a, (s.nodes a).Idle (net.fsm a)) (hs : Stepped net b s l s') : Blank s' := by
  have hsearched : ∀ {a : A}, (s.nodes a).currentState = none →
      ((s.nodes a).searchActiveTransition (net.fsm a) (net.check b s.toNetState a)).ct = none := by
    intro a hnone
    rw [NodeBase.searchActiveTransition_ct, hnone]
    rfl
  cases hs with
  | silent hsame =>
    intro a
    rw [hsame.nodes]
    exact h a
  | @delivered a e n sent he hn =>
    refine h.update (a := a) (n := n) ?_ ?_
    · simp only [Simulation.notifyActivation_toNetState, Simulation.setNode_toNetState, logSearch_toNetState]
    · cases hn with
      | executing | ignored => exact h a
      | activated | deactivated => exact hsearched
  | @reset _ a n sent control _ _ _ _ hn =>
    refine h.update (a := a) (n := n) ?_ ?_
    · simp only [Simulation.notifyActivation_toNetState, Simulation.setNode_toNetState, logSearch_toNetState]
    · rw [hn.currentState]
      rintro ⟨⟩
  | @switched _ a n sent on _ _ _ hn =>
    refine h.update (a := a) (n := n) ?_ ?_
    · simp only [Simulation.notifyActivation_toNetState, Simulation.setNode_toNetState, logSearch_toNetState]
    · rw [hn.currentState, hn.ct]
      intro hnone
      rw [hnone]
      exact h a hnone
  | run => exact h
  | @polled a _ _ _ hp =>
    cases hp with
    | inactive => exact h
    | @done n ha hn hct =>
      refine h.update (a := a) (n := n) ?_ fun _ => hct
      simp only [Simulation.setNode_toNetState, logPoll_toNetState]
    | @fire n t ha hn hct =>
      refine h.update (a := a) (n := { n with executing := true }) ?_ ?_
      · simp only [Simulation.setNode_toNetState, logFire_toNetState]
      · rcases canFire_cases hn with rfl | ⟨_, rfl⟩
        · exact h a
        · exact hsearched
  | @finished a t =>
    refine h.update (a := a) (n := (s.nodes a).scheduleReturn (net.fsm a) (net.check b s.toNetState a) t) ?_ ?_
    · simp only [Network.finish, Simulation.setNode_toNetState, logSearch_toNetState]
    · rw [((hi a).scheduleReturn _ t).currentState]
      rintro ⟨⟩

/-! ## What holds in every state -/

/-- The queues have yet to finish what has been started, and hold the tokens when the firing is done. -/
def Flying (started : List (Commit K)) (l : K → Option (List D)) (aq aq' : K → Option (AbsQueue D)) : Prop :=
  Accounts started aq ∧ ∃ n p, AllLoose l n p (fun _ _ => none) aq'

/-- The marking is what the channels hold when everything in flight has arrived. -/
structure Carries (net : Network A K Z Q T V D) (b : Build) (chans : K → FifoChan D Bool) (s : Coupled A K Z Q T V D)
    (m : Marking A K Q V D) : Prop extends Follows net chans (Flying s.started m.queue) s.toNetState m where
  inv : Inv net b s.toNetState
  blank : Blank s.toSimulation
  chosen : ∀ a t, s.control = .acting a t → s.Settled ∧ net.search b s.toNetState a = some t
  opens : ∀ task ∈ s.control.todo, task.Opens
  polling : s.control.isPolling = false

omit [DecidableEq A] [DecidableEq K] [DecidableEq Z] [DecidableEq Q] [Token D] [Fintype A] in
theorem opens_nil {c : Control A K Z T D} (h : c.isExecuting = false) : ∀ task ∈ c.todo, task.Opens := by
  rw [Control.todo_eq h]
  simp

/-- A choice that has been made stays while the actor's code runs. -/
theorem chosen_told {s s₁ : Simulation A K Z Q T V D} {l : Label A K Z} (hi : ∀ a, (s.nodes a).Idle (net.fsm a))
    (hset : s.Settled) (hl : l.Tells) (hs : net.step b s l = some s₁) :
    s₁.Settled ∧ net.search b s₁.toNetState a = net.search b s.toNetState a := by
  have hswitched : ∀ {a' : A} {n : NodeBase Q T (Finset (NetEvent K Z))} {on : Bool} {sent : Option Bool} {q : Option Q}
      {searches : Bool}, NodeBase.Switched (net.fsm a') (net.check b s.toNetState a') on (s.nodes a') n sent →
      (((net.logSearch b a' q searches false s).setNode a' n).notifyActivation a' sent).Settled ∧
        net.search b (((net.logSearch b a' q searches false s).setNode a' n).notifyActivation a' sent).toNetState a =
          net.search b s.toNetState a := by
    intro a' n on sent q searches hn
    simp only [NetState.Settled, Simulation.notifyActivation_toNetState, Simulation.setNode_toNetState, logSearch_toNetState]
    refine ⟨hset, search_eq rfl rfl rfl ?_⟩
    by_cases ha : a = a'
    · subst ha
      simp only [Function.update_self]
      exact hn.currentState
    · simp only [Function.update_of_ne ha]
  cases l with
  | deliver a' e =>
    obtain ⟨he, _⟩ := Option.ite_none_right_eq_some.mp hs
    rw [hset.2 a'] at he
    exact absurd he (Finset.notMem_empty e)
  | call =>
    obtain ⟨_, hs⟩ := Option.ite_none_right_eq_some.mp hs
    rw [nextCall, hset.1] at hs
    cases hs
  | setActive a' flag =>
    obtain ⟨_, hs⟩ := Option.ite_none_right_eq_some.mp hs
    obtain ⟨n, sent, hn, rfl⟩ := setActive_cases (hi a') hs
    exact hswitched hn
  | setUseActivationCallback a' flag =>
    obtain ⟨_, hs⟩ := Option.ite_none_right_eq_some.mp hs
    obtain ⟨n, sent, hn, heq⟩ := setUseActivationCallback_cases (b := b) flag (hi a')
    rw [heq, Option.some.injEq] at hs
    rw [← hs]
    exact hswitched hn
  | reset | run | step => exact hl.elim

omit [DecidableEq A] [DecidableEq K] [DecidableEq Z] [DecidableEq Q] [Token D] [Fintype A] in
theorem withinCounts_tells {s : NetState A K Z Q T V D} {l : Label A K Z} (hl : l.Tells) : WithinCounts s l := by
  cases l with
  | step => exact hl.elim
  | _ => trivial

theorem Carries.told {s₁ : Simulation A K Z Q T V D} {l : Label A K Z} (h : Carries net b chans s m) (hl : l.Tells)
    (hs : net.step b s.toSimulation l = some s₁) : Carries net b chans { s with toSimulation := s₁ } m := by
  obtain ⟨hfollows, hc⟩ := h.toFollows.tells h.inv.idle hl hs
  refine ⟨hfollows, h.inv.step (withinCounts_tells hl) hs, h.blank.stepped h.inv.idle (step_cases h.inv.idle hs),
    fun a t hacting => ?_, ?_, ?_⟩
  · obtain ⟨hset, hsearch⟩ := h.chosen a t (hc ▸ hacting)
    obtain ⟨hset', heq⟩ := chosen_told (a := a) h.inv.idle hset hl hs
    exact ⟨hset', heq.trans hsearch⟩
  · simp only [hc]
    exact h.opens
  · simp only [hc]
    exact h.polling

theorem Carries.reset [DecidableEq T] {s₁ : Simulation A K Z Q T V D} {r : (K ⊕ Z) ⊕ A} (h : Carries net b chans s m)
    (hstarted : s.started = []) (hs : net.step b s.toSimulation (.reset r) = some s₁) :
    ∃ m', Persistent.exec (net.move (fun k => (chans k).depthCount) fun k => (chans k).initialTokens)
      (emits s.toNetState (.reset r)) m = some m' ∧ Carries net b chans { s with toSimulation := s₁ } m' := by
  have hinv : Inv net b s₁.toNetState := h.inv.step (l := .reset r) trivial hs
  have hblank : Blank s₁ := h.blank.stepped h.inv.idle (step_cases h.inv.idle hs)
  have hidle : ∀ {m' : Marking A K Q V D}, s₁.control = .idle → Follows net chans (Flying s.started m'.queue) s₁.toNetState m' →
      Carries net b chans { s with toSimulation := s₁ } m' := by
    intro m' hc hfollows
    refine ⟨hfollows, hinv, hblank, ?_, opens_nil ?_, ?_⟩
    · simp [hc]
    · simp only [hc]
      rfl
    · simp only [hc]
      rfl
  obtain ⟨⟨hset, hidle'⟩, hs⟩ := Option.ite_none_right_eq_some.mp hs
  have hc := Control.eq_idle hidle'
  rcases r with (k | z) | a
  · obtain ⟨s₂, hop, hc', hfollows⟩ := h.toFollows.resetChan (b := b)
      (Flying s.started (Function.update m.queue k (some (chans k).initialTokens))) hset.1 hc k fun aq hflying => by
        obtain ⟨haccounts, n, p, hloose⟩ := hflying
        rw [hstarted] at haccounts ⊢
        exact ⟨haccounts.update rfl rfl (fun _ _ => rfl) (fun _ _ => rfl) fun _ hc _ => hc, _, _, AllLoose.reset hloose k _⟩
    obtain ⟨s₃, hop', heq⟩ := Option.bind_eq_some_iff.mp hs
    rw [hop, Option.some.injEq] at hop'
    cases heq
    cases hop'
    exact ⟨_, rfl, hidle hc' hfollows⟩
  · cases hs
    refine ⟨m, rfl, hidle hc (h.toFollows.congr ?_ rfl rfl fun _ => rfl)⟩
    rw [NetState.settled_of_nil hset.1]
    rfl
  · cases hs
    exact ⟨_, rfl, hidle (resetNode_control.trans hc) (h.toFollows.resetNode h.inv.idle hc a)⟩

omit [Token D] [Fintype A] in
theorem Carries.polled {s₁ : Simulation A K Z Q T V D} (h : Carries net b chans s m) (hset : s.Settled) (hc : s.control = .idle)
    (hp : net.poll b a { s.toSimulation with control := .polling a } = some s₁) :
    Carries net b chans { s with toSimulation := s₁ } m := by
  have hx : s.control.isExecuting = false := by rw [hc]; rfl
  -- the state in which the simulator calls `canFire`
  have hfollows := h.toFollows.setControl (.polling a) hx rfl
  have hinv : Inv net b { s.toNetState with control := .polling a } := by
    refine h.inv.setControl (fun a' => ?_) (by simp)
    rw [hc]
    exact Iff.rfl
  have hpolled := poll_cases hp
  have hfollows' := hfollows.polled (s := { s.toSimulation with control := .polling a }) rfl hpolled
  refine ⟨hfollows', hinv.poll (s := { s.toSimulation with control := .polling a }) hset rfl hp, ?_, fun a' t hacting => ?_, ?_, ?_⟩
  · exact Blank.stepped (s := { s.toSimulation with control := .polling a }) h.blank hinv.idle (.polled hset rfl hpolled)
  · cases hpolled with
    | inactive | done => cases hacting
    | @fire n t ha hn hct =>
      cases hacting
      have hct' := hinv.canFire_eq (s := { s.toSimulation with control := .polling a }) (h.blank a) hset id ha
      rw [← hn, hct] at hct'
      have hsearch : net.search b { s.toNetState with control := .polling a } a = some t := hct'.symm
      simp only [NetState.Settled, Simulation.setNode_toNetState, logFire_toNetState]
      refine ⟨hset, ?_⟩
      rw [← hsearch]
      refine search_eq rfl rfl rfl ?_
      simp only [Function.update_self]
      rcases canFire_cases hn with rfl | ⟨_, rfl⟩
      · rfl
      · rfl
  · cases hpolled with
    | inactive | done | fire => exact opens_nil rfl
  · cases hpolled with
    | inactive | done | fire => rfl

/-! ## Firings -/

section
variable {aq : K → Option (AbsQueue D)} {n p : K → Nat} {staged : K → Nat → Option D} {k : K}

omit [DecidableEq A] [DecidableEq K] [DecidableEq Z] [DecidableEq Q] [Token D] [Fintype A] in
theorem seen_get {chans' : K → FifoChan D Bool} {depth : K → Nat} (huses : ∀ k, (chans' k).Uses (depth k) (aq k))
    (h : AllLoose m.queue n p staged aq) {l : List D} (hl : l ∈ (m.seen aq).queue k) : ∃ l', m.queue k = some (l ++ l') ∧
      l'.length = p k ∧ n k + l.length + p k ≤ depth k ∧ seenDepth depth aq k = depth k - (n k + p k) := by
  obtain ⟨q, hq, rfl⟩ := Option.map_eq_some_iff.mp hl
  have hk := h k
  have huse := huses k
  rw [hq] at hk huse
  have huse : Embodies (depth k) (chans' k) q := huse
  generalize hm : m.queue k = l₀ at hk
  cases hk with
  | some hk =>
    have hle := huse.serves.counted.areas.fits
    rw [huse.serves.counted.fsize_eq, hk.pipeline, hk.consumed] at hle
    refine ⟨q.pipeline, by rw [hk.tokens], hk.pipeline, by omega, ?_⟩
    rw [seenDepth, hq, Option.elim, hk.consumed, hk.pipeline]

omit [DecidableEq A] [DecidableEq K] [DecidableEq Z] [DecidableEq Q] [Token D] [Fintype A] in
theorem grows_seen {chans' : K → FifoChan D Bool} {depth : K → Nat} (huses : ∀ k, (chans' k).Uses (depth k) (aq k))
    (h : AllLoose m.queue n p staged aq) : Grows net (seenDepth depth aq) depth a (m.seen aq) m where
  state := rfl
  vars := rfl
  reads t info hinfo l hl := by
    obtain ⟨l', hl', _⟩ := seen_get huses h hl
    exact ⟨l', hl'⟩
  writes t info hinfo k hk l hl := by
    obtain ⟨l', hl', hlen, hfits, hdepth⟩ := seen_get huses h hl
    refine ⟨l ++ l', hl', ?_⟩
    rw [List.length_append]
    omega

omit [DecidableEq A] [DecidableEq K] [DecidableEq Z] [DecidableEq Q] [Token D] [Fintype A] in
theorem served_seen {chans' : K → FifoChan D Bool} {depth : K → Nat} (huses : ∀ k, (chans' k).Uses (depth k) (aq k))
    (h : AllLoose m.queue n p staged aq) (hr : Ready (seenDepth depth aq) (m.seen aq) (net.rule a t)) :
    Served depth m n p (net.rule a t) := by
  refine ⟨fun info hinfo => ?_, fun info hinfo k hk => ?_⟩
  · obtain ⟨l, hl, hlen⟩ := hr.1 info hinfo
    obtain ⟨l', hl', hlen', _⟩ := seen_get huses h hl
    refine ⟨l ++ l', hl', ?_⟩
    rw [List.length_append]
    omega
  · obtain ⟨l, hl, hlen⟩ := hr.place hinfo hk
    obtain ⟨l', hl', hlen', hfits, hdepth⟩ := seen_get huses h hl
    refine ⟨l ++ l', hl', ?_⟩
    rw [List.length_append]
    omega

end

open RuntimeFiringRule in
omit [DecidableEq A] [DecidableEq K] [DecidableEq Z] [DecidableEq Q] [Token D] [Fintype A] in
theorem mem_tasksOf {late : Bool} {writes : List (Nat × Nat × D)} {task : Task A K Z D}
    (h : task ∈ (net.rule a t).tasksOf A late writes) : task ∈ (net.rule a t).tasks A writes := by
  have hcommit : ∀ {k : K} {o o' : FifoOp D}, task ∈ commit A Z late k o o' → task ∈ commit A Z false k o o' := by
    intro k o o' hmem
    cases late with
    | true => exact List.mem_cons.mpr (.inl (List.mem_singleton.mp hmem))
    | false => exact hmem
  rw [← tasksOf_false, tasksOf, List.mem_append, List.mem_append]
  rw [tasksOf, List.mem_append, List.mem_append] at h
  rcases h with (h | h) | h
  · exact .inl (.inl h)
  · obtain ⟨info, hinfo, h⟩ := List.mem_flatMap.mp h
    exact .inl (.inr (List.mem_flatMap.mpr ⟨info, hinfo, hcommit h⟩))
  · obtain ⟨info, hinfo, h⟩ := List.mem_flatMap.mp h
    refine .inr (List.mem_flatMap.mpr ⟨info, hinfo, ?_⟩)
    rw [commOut, List.mem_append] at h ⊢
    refine h.imp_right fun h => ?_
    obtain ⟨s, hs, h⟩ := List.mem_flatMap.mp h
    refine List.mem_flatMap.mpr ⟨s, hs, ?_⟩
    cases s with
    | inl k => exact hcommit h
    | inr z => exact h

open RuntimeFiringRule in
omit [DecidableEq A] [DecidableEq Z] [DecidableEq Q] [Token D] [Fintype A] in
theorem opens_tasksOf (hreg : net.Regular) {writes : List (Nat × Nat × D)} :
    ∀ task ∈ (net.rule a t).tasksOf A true writes, task.Opens := by
  intro task h
  rw [tasksOf, List.mem_append, List.mem_append] at h
  rcases h with (h | h) | h
  · obtain ⟨w, _, hw⟩ := List.mem_filterMap.mp h
    obtain ⟨info, _, hw⟩ := Option.bind_eq_some_iff.mp hw
    obtain ⟨sink, _, hw⟩ := Option.bind_eq_some_iff.mp hw
    obtain ⟨k, _, hw⟩ := Option.bind_eq_some_iff.mp hw
    cases hw
    trivial
  · obtain ⟨info, hinfo, h⟩ := List.mem_flatMap.mp h
    obtain rfl := List.mem_singleton.mp h
    trivial
  · obtain ⟨info, hinfo, h⟩ := List.mem_flatMap.mp h
    rw [commOut, List.mem_append] at h
    rcases h with h | h
    · split at h
      · obtain ⟨sink, _, hs⟩ := List.mem_filterMap.mp h
        obtain ⟨k', _, rfl⟩ := Option.map_eq_some_iff.mp hs
        trivial
      · cases h
    · obtain ⟨s, hs, h⟩ := List.mem_flatMap.mp h
      obtain ⟨k, rfl⟩ := Sum.isLeft_iff.mp (hreg.isLeft a t info hinfo s hs)
      obtain rfl := List.mem_singleton.mp h
      trivial

omit [DecidableEq A] [DecidableEq Q] [Token D] [Fintype A] in
/-- What the actor has chosen is the choice by what it sees of the channels. -/
theorem Carries.choice_seen {aq : K → Option (AbsQueue D)} (h : Carries net b chans s m) (hreg : net.Regular)
    (hreq : net.Requested chans) (hset : s.Settled) (hc : s.control = .acting a t)
    (huses : ∀ k, (s.chans k).Uses (chans k).depthCount (aq k)) :
    net.choice (seenDepth (fun k => (chans k).depthCount) aq) (m.seen aq) a = some t := by
  rw [← h.find_seen (b := b) hreq hreg hset.1 (by rw [hc]; rfl) huses]
  exact (h.chosen a t hc).2

omit [DecidableEq A] [DecidableEq Q] [Token D] [Fintype A] in
/-- It is what the dataflow net would choose if everything in flight had arrived. -/
theorem Carries.choice (h : Carries net b chans s m) (hreg : net.Regular) (hreq : net.Requested chans)
    (hstable : ∀ d, (∀ k, d k ≤ (chans k).depthCount) → net.Stable d fun k => (chans k).depthCount) (hset : s.Settled)
    (hc : s.control = .acting a t) : net.choice (fun k => (chans k).depthCount) m a = some t := by
  obtain ⟨aq, huses, _, n, p, hloose⟩ := h.toFollows.uses hset.1 (by rw [hc]; rfl)
  have hle : ∀ k, seenDepth (fun k => (chans k).depthCount) aq k ≤ (chans k).depthCount := by
    intro k
    rw [seenDepth]
    cases aq k with
    | none => exact Nat.le_refl _
    | some q => exact Nat.sub_le _ _
  exact hstable _ hle a _ m t (grows_seen huses hloose) (h.choice_seen hreg hreq hset hc huses)

omit [DecidableEq Q] [Token D] [Fintype A] in
/-- The action takes tokens that have arrived, and the firing as a whole is what the dataflow net does. -/
theorem Carries.acted (h : Carries net b chans s m) (hreg : net.Regular) (hreq : net.Requested chans) (hset : s.Settled)
    (hc : s.control = .acting a t) :
    Carries net b chans { s with toSimulation := net.coupledAct b a t s.toSimulation } (net.fire m a t) := by
  obtain ⟨aq, huses, _, n, p, hloose⟩ := h.toFollows.uses hset.1 (by rw [hc]; rfl)
  have hready := ready_of_choice (h.choice_seen hreg hreq hset hc huses)
  have hgrows : Grows net (seenDepth (fun k => (chans k).depthCount) aq) (fun k => (chans k).depthCount) a (m.seen aq) m :=
    grows_seen huses hloose
  have htokens : s.tokens b (net.rule a t) = heads m (net.rule a t) := (tokens_eq huses hready).trans (hgrows.heads hready).symm
  have hfollows : Follows net chans (Flying s.started (net.fire m a t).queue) (net.coupledAct b a t s.toSimulation).toNetState
      (net.fire m a t) := by
    refine h.toFollows.act hset.1 hc htokens fun aq huses ⟨haccounts, n, p, hloose⟩ => ?_
    obtain ⟨n', p', aq', htasks, hloose', _⟩ := performs_tasks true (fun k => (chans k).initialTokens) hreg
      (served_seen huses hloose (ready_of_choice (h.choice_seen hreg hreq hset hc huses))) hloose
    rw [← htokens, h.vars] at htasks
    exact ⟨aq', htasks, haccounts, n', p', hloose'⟩
  have hexec : (s.nodes a).executing = true := by
    rw [h.inv.executing a, hc]
    rfl
  have hinv : Inv net b { s.toNetState with
      nodes := Function.update s.nodes a (s.nodes a)
      vars := Function.update s.vars a (net.action a t (s.vars a) (s.tokens b (net.rule a t))).1
      control := .executing a t ((net.rule a t).tasksOf A true (net.action a t (s.vars a) (s.tokens b (net.rule a t))).2) } := by
    refine h.inv.alone hset a (h.inv.idle a) (iff_of_true hexec rfl) (fun a' _ => by rw [hc]; exact Iff.rfl) ?_ ?_
    · simp [hexec]
    · intro a' t' todo heq task htask
      cases heq
      exact proper_tasks task (mem_tasksOf htask)
  rw [Function.update_eq_self] at hinv
  refine ⟨hfollows, hinv, h.blank, ?_, opens_tasksOf hreg, rfl⟩
  rintro _ _ ⟨⟩

omit [Token D] [Fintype A] in
theorem Carries.finished (h : Carries net b chans s m) (hset : s.Settled) (hc : s.control = .executing a t []) :
    Carries net b chans { s with toSimulation := { net.finish b a t s.toSimulation with control := .idle } } m where
  toFollows := (h.toFollows.finish h.inv.idle hc).setControl .idle rfl rfl
  inv := (h.inv.finish hset hc).setControl (fun _ => Iff.rfl) (by simp)
  blank := by
    have hblank : Blank (net.finish b a t s.toSimulation) := h.blank.stepped h.inv.idle (.finished hset hc)
    exact hblank
  chosen := by simp
  opens := opens_nil rfl
  polling := rfl

theorem Carries.done {task : Task A K Z D} {todo : List (Task A K Z D)} {s₁ : Simulation A K Z Q T V D}
    (h : Carries net b chans s m) (hset : s.Settled) (hc : s.control = .executing a t (task :: todo))
    (ht : net.doTask b a t task todo s.toSimulation = some s₁) : WithinCounts s.toNetState (.step : Label A K Z) ∧
      s₁.control = .executing a t todo ∧ Carries net b chans { toSimulation := s₁, started := task.starts ++ s.started } m := by
  have hs : net.step b s.toSimulation .step = some s₁ := by
    rw [Network.step, if_pos hset, Network.proceed, hc]
    exact ht
  have hopens : ∀ task' ∈ task :: todo, task'.Opens := by
    intro task' hmem
    refine h.opens task' ?_
    rw [hc]
    exact hmem
  have hblank : Blank s₁ := h.blank.stepped h.inv.idle (step_cases h.inv.idle hs)
  have hexecuting : ∀ {started : List (Commit K)}, WithinCounts s.toNetState (.step : Label A K Z) →
      s₁.control = .executing a t todo → Follows net chans (Flying started m.queue) s₁.toNetState m →
      WithinCounts s.toNetState (.step : Label A K Z) ∧ s₁.control = .executing a t todo ∧
        Carries net b chans { toSimulation := s₁, started } m := by
    intro started hwithin hc' hfollows
    refine ⟨hwithin, hc', hfollows, h.inv.doTask hset hc hwithin ht, hblank, ?_, fun task' hmem => hopens task' ?_, ?_⟩
    · simp [hc']
    · simp only [hc'] at hmem
      exact List.mem_cons_of_mem _ hmem
    · simp only [hc']
      rfl
  have htask := hopens task List.mem_cons_self
  cases task with
  | op k o =>
    have hopening : AbsQueue.Opening o := by
      cases o with
      | write | outletStart | entryStart => exact trivial
      | entryFinish | outletFinish | doReset => exact htask
    obtain ⟨hguarded, s₂, hop, hc', hfollows⟩ := h.toFollows.op (b := b)
      (Flying ((Task.op k o : Task A K Z D).starts ++ s.started) m.queue) hset.1 hc
      fun aq aq' q hq hw hp ⟨haccounts, hloose⟩ => ⟨haccounts.op hq hopening hw hp, hloose⟩
    obtain ⟨s₃, hop', heq⟩ := Option.bind_eq_some_iff.mp ht
    rw [hop, Option.some.injEq] at hop'
    cases heq
    cases hop'
    refine hexecuting ?_ hc' hfollows
    simp only [WithinCounts, hc]
    exact hguarded
  | copy k k' n =>
    obtain ⟨hfree, head, ch, hcopy, hfollows⟩ := h.toFollows.copy (b := b) (Flying s.started m.queue) hset.1 hc
      fun aq aq' f q hq ⟨haccounts, hloose⟩ => ⟨haccounts.copy hq, hloose⟩
    obtain ⟨⟨head', ch'⟩, hcopy', heq⟩ := Option.bind_eq_some_iff.mp ht
    rw [hcopy, Option.some.injEq] at hcopy'
    cases hcopy'
    cases heq
    refine hexecuting ?_ rfl hfollows
    simp only [WithinCounts, hc]
    exact hfree
  | produce | reset => exact htask.elim

omit [DecidableEq A] [DecidableEq Q] [Fintype A] in
/-- A commit can be finished whenever the simulator may do so. -/
theorem Carries.commFinish {c : Commit K} (h : Carries net b chans s m) (hmem : c ∈ s.started) (hset : s.Settled)
    (hc : s.control.mayFinish = true) : (s.chans c.chan).Guarded c.commFinish ∧
      ∃ s₁, net.chanOp b c.chan c.commFinish s.toNetState = some s₁ ∧ s₁.control = s.control ∧
        Carries net b chans { s with toNetState := s₁, started := s.started.erase c } m := by
  obtain ⟨aq, aq', huses, hperforms, haccounts, n, p, hloose⟩ := h.queues
  have hconfig := h.config
  rw [NetState.settled_of_nil hset.1] at huses hconfig
  have hdue := haccounts.due (fun k => (chans k).depthCount) hmem
  obtain ⟨hdue', hperforms'⟩ := hdue.performs hperforms h.opens
  obtain ⟨n', p', hloose'⟩ := hloose.finish (fun k => (chans k).initialTokens) hdue'
  obtain ⟨q, hq, hw⟩ := hdue
  have hk := huses c.chan
  rw [Option.mem_def.mp hq] at hk
  have hk : Embodies (chans c.chan).depthCount (s.chans c.chan) q := hk
  have hplaced : q.Placed c.commFinish := by
    cases c with
    | source | sink => exact trivial
  obtain ⟨ch, hch, hembodies, hsame⟩ := hk.step (net.kind c.chan) b c.kept_commFinish hw hplaced
  obtain ⟨s₁, hop, hsettled, heq⟩ := chanOp_of net s.toNetState hch
  have hc' : s₁.control = s.control := by rw [heq]
  have hnodes : s₁.nodes = s.nodes := by rw [heq]
  have hfinish : c.finish (fun k => (chans k).initialTokens) aq =
      Function.update aq c.chan (some (q.step (chans c.chan).initialTokens c.commFinish)) := by
    rw [Commit.finish, Option.mem_def.mp hq]
    rfl
  have hguarded : (s.chans c.chan).Guarded c.commFinish := hk.guarded_iff.mpr hw
  refine ⟨hguarded, s₁, hop, hc', ⟨⟨⟨c.finish (fun k => (chans k).initialTokens) aq, _, ?_, ?_, haccounts.finish hmem, n', p',
    hloose'⟩, ?_, ?_, ?_, ?_⟩, ?_, ?_, ?_, ?_, ?_⟩⟩
  · rw [hsettled, hfinish, ← (hconfig c.chan).initialTokens]
    exact uses_update huses hembodies
  · rw [hc']
    exact hperforms'
  · rw [hsettled]
    exact config_update hconfig hsame
  · rw [hc']
    exact h.executes
  · rw [hc', hnodes]
    exact h.state
  · rw [heq]
    exact h.vars
  · exact h.inv.chanOp hset c.kept_commFinish hguarded (fun n heq => absurd heq c.commFinish_ne) hop
  · intro a
    simp only [hnodes]
    exact h.blank a
  · intro a t hacting
    simp only [hc'] at hacting
    rw [hacting] at hc
    cases hc
  · simp only [hc']
    exact h.opens
  · simp only [hc']
    exact h.polling

end Network

end SysteMoC
