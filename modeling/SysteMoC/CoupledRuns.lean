import SysteMoC.Completion
import SysteMoC.CoupledNetwork

/-!
# Runs of coupled networks

However the simulator orders the actors and delays the commits, no assertion fails, all
that is in flight arrives, and what is fired is what the library's own scheduler fires.
-/

namespace SysteMoC

open Liveness (Inevitable)

/-- Nothing is under way and nothing in flight. -/
structure Coupled.Drained {A K Z Q T V D : Type} (s : Coupled A K Z Q T V D) : Prop where
  control : s.control = .idle
  settled : s.Settled
  started : s.started = []

instance {A K Z Q T V D : Type} [Fintype A] [DecidableEq K] [DecidableEq Z] (s : Coupled A K Z Q T V D) : Decidable s.Drained :=
  decidable_of_iff (s.control.isIdle = true ∧ s.Settled ∧ s.started = [])
    ⟨fun h => ⟨Control.eq_idle h.1, h.2.1, h.2.2⟩, fun h => ⟨by rw [h.control]; rfl, h.settled, h.started⟩⟩

/-- The simulator turns to no actor, and nothing is asked of the nodes from outside. -/
def CoupledLabel.Arrives {A K Z : Type} : CoupledLabel A K Z → Prop
  | .lib (.deliver _ _) | .lib .call | .lib .step | .commFinish _ => True
  | _ => False

namespace Network

variable {A K Z Q T V D : Type} [DecidableEq A] [DecidableEq K] [DecidableEq Z] [DecidableEq Q] [Token D] [Fintype A]

def coupledStart (chans : K → FifoChan D Bool) (vars : A → V) : Coupled A K Z Q T V D :=
  { toSimulation := start chans vars, started := [] }

/-- The moves of the dataflow net that a step makes. -/
def coupledEmits (s : NetState A K Z Q T V D) : CoupledLabel A K Z → List (Move A K T)
  | .lib l => emits s l
  | .commFinish _ => []

inductive CoupledRun (net : Network A K Z Q T V D) (b : Build) (s₀ : Coupled A K Z Q T V D) :
    List (Move A K T) → Coupled A K Z Q T V D → Prop where
  | start : CoupledRun net b s₀ [] s₀
  | step {w s l s'} (hr : CoupledRun net b s₀ w s) (hs : net.coupledStep b s l = some s') :
      CoupledRun net b s₀ (w ++ coupledEmits s.toNetState l) s'

variable {net : Network A K Z Q T V D} {b : Build} {chans : K → FifoChan D Bool} {vars : A → V} {s s' : Coupled A K Z Q T V D}
  {m m' : Marking A K Q V D} {l : CoupledLabel A K Z} {w : List (Move A K T)}

/-! ## What holds in every state of a run -/

omit [DecidableEq A] [DecidableEq Q] [Fintype A] in
theorem carries_start (hbuilt : net.Elaborated b chans) :
    Carries net b chans (coupledStart chans vars : Coupled A K Z Q T V D) (.start vars) where
  toFollows := follows_start hbuilt ⟨⟨by simp, by simp, by simp [coupledStart]⟩, 0, 0, fun _ => .none⟩
  inv := inv_start hbuilt
  blank _ _ := rfl
  chosen := by simp [coupledStart, start]
  opens := opens_nil rfl
  polling := rfl

section
variable [DecidableEq T]

/-- Every step is a move of the dataflow net, or none. -/
theorem Carries.step (h : Carries net b chans s m) (hreg : net.Regular) (hreq : net.Requested chans)
    (hs : CoupledStepped net b s l s') : ∃ m', Carries net b chans s' m' ∧
      ((∀ d, (∀ k, d k ≤ (chans k).depthCount) → net.Stable d fun k => (chans k).depthCount) →
        Persistent.exec (net.move (fun k => (chans k).depthCount) fun k => (chans k).initialTokens)
          (coupledEmits s.toNetState l) m = some m') := by
  cases hs with
  | @told l _ hl hs =>
    refine ⟨m, h.told hl hs, fun _ => ?_⟩
    cases l with
    | deliver | call | setActive | setUseActivationCallback => rfl
    | reset | run | step => exact hl.elim
  | reset hstarted hs =>
    obtain ⟨m', hexec, h'⟩ := h.reset hstarted hs
    exact ⟨m', h', fun _ => hexec⟩
  | polled hset hc hp => exact ⟨m, h.polled hset hc hp, fun _ => rfl⟩
  | @acted a t hset hc =>
    refine ⟨_, h.acted hreg hreq hset hc, fun hstable => ?_⟩
    rw [coupledEmits, emits, hc]
    exact Persistent.exec_cons_of (firing_eq_some.mpr ⟨h.choice hreg hreq hstable hset hc, rfl⟩)
  | finished hset hc =>
    refine ⟨m, h.finished hset hc, fun _ => ?_⟩
    rw [coupledEmits, emits, hc]
    rfl
  | done hset hc ht =>
    refine ⟨m, (h.done hset hc ht).2.2, fun _ => ?_⟩
    rw [coupledEmits, emits, hc]
    rfl
  | commFinished hmem hset hc ho =>
    obtain ⟨_, s₁, ho', _, h'⟩ := h.commFinish hmem hset hc
    rw [ho', Option.some.injEq] at ho
    exact ⟨m, ho ▸ h', fun _ => rfl⟩

theorem CoupledRun.carries (hreg : net.Regular) (hbuilt : net.Elaborated b chans)
    (hr : CoupledRun net b (coupledStart chans vars) w s) : ∃ m, Carries net b chans s m ∧
      ((∀ d, (∀ k, d k ≤ (chans k).depthCount) → net.Stable d fun k => (chans k).depthCount) →
        Persistent.exec (net.move (fun k => (chans k).depthCount) fun k => (chans k).initialTokens) w (.start vars) = some m) := by
  induction hr with
  | start => exact ⟨_, carries_start hbuilt, fun _ => rfl⟩
  | step _ hs ih =>
    obtain ⟨m, h, hexec⟩ := ih
    obtain ⟨m', h', hexec'⟩ := h.step hreg hbuilt.requested (coupledStep_cases hs)
    refine ⟨m', h', fun hstable => ?_⟩
    rw [Persistent.exec_append, hexec hstable]
    exact hexec' hstable

end

/-! ## Assertions -/

theorem Carries.keeping (h : Carries net b chans s m) (h' : Carries net b chans s' m') (hkeeping : Keeping net b s.toNetState)
    (hplain : ∀ k, net.kind k = .fifo) (hs : CoupledStepped net b s l s') : Keeping net b s'.toNetState := by
  cases hs with
  | told hl hs => exact hkeeping.step h.inv hplain (withinCounts_tells hl) hs
  | reset _ hs => exact hkeeping.step (l := .reset _) h.inv hplain trivial hs
  | polled hset _ hp =>
    refine h'.inv.keeping ?_
    cases poll_cases hp with
    | inactive => exact hset
    | done =>
      simp only [NetState.Settled, Simulation.setNode_toNetState, logPoll_toNetState]
      exact hset
    | fire =>
      simp only [NetState.Settled, Simulation.setNode_toNetState, logFire_toNetState]
      exact hset
  | acted hset => exact h'.inv.keeping hset
  | finished hset =>
    refine h'.inv.keeping ?_
    simp only [NetState.Settled, Network.finish, Simulation.setNode_toNetState, logSearch_toNetState]
    exact hset
  | done hset hc ht => exact h.inv.keeping_doTask hset hplain hc (h.done hset hc ht).1 ht
  | @commFinished c _ hmem hset hc ho =>
    exact h.inv.keeping_chanOp hset (hplain c.chan) c.kept_commFinish (h.commFinish hmem hset hc).1
      (fun n heq => absurd heq c.commFinish_ne) ho

theorem CoupledRun.keeping (hreg : net.Regular) (hbuilt : net.Elaborated b chans) (hplain : ∀ k, net.kind k = .fifo)
    (hr : CoupledRun net b (coupledStart chans vars) w s) : Keeping net b s.toNetState := by
  classical
  induction hr with
  | start => exact keeping_start
  | step hr hs ih =>
    obtain ⟨m, h, _⟩ := hr.carries hreg hbuilt
    obtain ⟨m', h', _⟩ := h.step hreg hbuilt.requested (coupledStep_cases hs)
    exact h.keeping h' ih hplain (coupledStep_cases hs)

def CoupledTurn (s : Coupled A K Z Q T V D) : CoupledLabel A K Z → Prop
  | .lib (.run _) => s.Settled ∧ s.control.isIdle = true
  | .lib (.reset r) => s.started = [] ∧ Turn s.toSimulation (.reset r)
  | .lib l => Turn s.toSimulation l
  | .commFinish c => c ∈ s.started ∧ s.Settled ∧ s.control.mayFinish = true

theorem Carries.step_isSome (h : Carries net b chans s m) (hkeeping : b.debug = true → Keeping net b s.toNetState)
    (hl : CoupledTurn s l) : (net.coupledStep b s l).isSome := by
  have htells : ∀ {l : Label A K Z}, l.Tells → Turn s.toSimulation l →
      ((net.step b s.toSimulation l).map fun s' => ({ s with toSimulation := s' } : Coupled A K Z Q T V D)).isSome := by
    intro l ht hl
    rw [Option.isSome_map]
    exact h.inv.tells_isSome hkeeping ht hl
  cases l with
  | lib l =>
    cases l with
    | deliver | call | setActive | setUseActivationCallback => exact htells trivial hl
    | reset r =>
      rw [coupledStep, if_pos hl.1, Option.isSome_map]
      exact h.toFollows.reset_isSome hl.2
    | run a =>
      have hl : s.Settled ∧ s.control.isIdle = true := hl
      have hinv : Inv net b { s.toNetState with control := .polling a } := by
        refine h.inv.setControl (fun a' => ?_) (by simp)
        rw [Control.eq_idle hl.2]
        exact Iff.rfl
      rw [coupledStep, if_pos hl, Option.isSome_map]
      exact hinv.poll_isSome (s := { s.toSimulation with control := .polling a }) (h.blank a) hl.1 rfl
    | step =>
      have hl : s.Settled ∧ s.control.isIdle = false := hl
      rw [coupledStep, if_pos hl.1, coupledProceed]
      cases hc : s.control with
      | idle =>
        rw [hc] at hl
        cases hl.2
      | polling =>
        have hpolling := h.polling
        rw [hc] at hpolling
        cases hpolling
      | acting => rfl
      | executing a t todo =>
        cases todo with
        | nil => rfl
        | cons task todo =>
          obtain ⟨s₁, hs₁⟩ := Option.isSome_iff_exists.mp (h.toFollows.doTask_isSome (b := b) hl.1 hc)
          simp only [hs₁, Option.bind_eq_bind, Option.bind_some]
          rfl
  | commFinish c =>
    have hl : c ∈ s.started ∧ s.Settled ∧ s.control.mayFinish = true := hl
    obtain ⟨_, s₁, ho, _⟩ := h.commFinish hl.1 hl.2.1 hl.2.2
    rw [coupledStep, if_pos hl, ho]
    rfl

/-! ## What arrives -/

/-- The steps that end what has been begun. -/
def Drains (net : Network A K Z Q T V D) (b : Build) (s s' : Coupled A K Z Q T V D) : Prop :=
  ∃ l : CoupledLabel A K Z, l.Arrives ∧ net.coupledStep b s l = some s'

/-- What is left to do; a task starts one commit at most. -/
def coupledLeft (s : Coupled A K Z Q T V D) : ℕ ×ₗ ℕ ×ₗ ℕ ×ₗ ℕ ×ₗ ℕ :=
  toLex (if s.control.isActing then 1 else 0, toLex (2 * s.control.work + s.started.length, left s.toNetState))

omit [DecidableEq A] [DecidableEq K] [DecidableEq Z] [DecidableEq Q] [Token D] in
theorem coupledLeft_lt (hc : s'.control.isActing = s.control.isActing)
    (h : 2 * s'.control.work + s'.started.length < 2 * s.control.work + s.started.length) : coupledLeft s' < coupledLeft s := by
  refine Prod.Lex.toLex_lt_toLex.mpr (.inr ⟨?_, Prod.Lex.toLex_lt_toLex.mpr (.inl h)⟩)
  simp only [hc]

theorem Carries.drains (h : Carries net b chans s m) (hl : l.Arrives) (hs : CoupledStepped net b s l s') :
    coupledLeft s' < coupledLeft s := by
  cases hs with
  | @told l s₁ ht hs =>
    have htold : ∀ {s₁ : Simulation A K Z Q T V D}, s₁.control = s.control ∧ left s₁.toNetState < left s.toNetState →
        coupledLeft { s with toSimulation := s₁ } < coupledLeft s := by
      intro s₁ hs₁
      refine Prod.Lex.toLex_lt_toLex.mpr (.inr ⟨?_, Prod.Lex.toLex_lt_toLex.mpr (.inr ⟨?_, hs₁.2⟩)⟩)
      · simp only [hs₁.1]
      · simp only [hs₁.1]
    cases l with
    | deliver a e =>
      obtain ⟨he, hs⟩ := Option.ite_none_right_eq_some.mp hs
      exact htold (left_deliver he (h.inv.idle a) hs)
    | call => exact htold (left_call (Option.ite_none_right_eq_some.mp hs).2)
    | setActive | setUseActivationCallback => exact hl.elim
    | reset | run | step => exact ht.elim
  | reset | polled => exact hl.elim
  | acted _ hc =>
    refine Prod.Lex.toLex_lt_toLex.mpr (.inl ?_)
    rw [hc]
    exact Nat.one_pos
  | finished _ hc =>
    refine coupledLeft_lt ?_ ?_
    · rw [hc]
      rfl
    · simp only [hc, Control.work, List.length_nil]
      omega
  | @done a t task todo s₁ hset hc ht =>
    obtain ⟨_, hc', _⟩ := h.done hset hc ht
    refine coupledLeft_lt ?_ ?_
    · simp only [hc, hc']
      rfl
    · have hstarts := task.length_starts_le
      simp only [hc, hc', Control.work, List.length_append, List.length_cons]
      omega
  | commFinished hmem hset hc ho =>
    obtain ⟨_, s₁, ho', hc', _⟩ := h.commFinish hmem hset hc
    rw [ho', Option.some.injEq] at ho
    subst ho
    refine coupledLeft_lt ?_ ?_
    · simp only [hc']
    · have hlen := List.length_erase_of_mem hmem
      have hpos := List.length_pos_of_mem hmem
      simp only [hc']
      omega

theorem Carries.arrives (h : Carries net b chans s m) (hkeeping : b.debug = true → Keeping net b s.toNetState)
    (hnot : ¬ s.Drained) : ∃ s', Drains net b s s' := by
  have hgoes : ∀ {l : CoupledLabel A K Z}, l.Arrives → CoupledTurn s l → ∃ s', Drains net b s s' := by
    intro l hl hturn
    obtain ⟨s', hs⟩ := Option.isSome_iff_exists.mp (h.step_isSome hkeeping hturn)
    exact ⟨s', l, hl, hs⟩
  by_cases hset : s.Settled
  · cases hidle : s.control.isIdle with
    | false => exact hgoes (l := .lib .step) trivial ⟨hset, hidle⟩
    | true =>
      have hc := Control.eq_idle hidle
      cases hstarted : s.started with
      | nil => exact absurd ⟨hc, hset, hstarted⟩ hnot
      | cons c started =>
        have hmem : c ∈ s.started := by
          rw [hstarted]
          exact List.mem_cons_self
        exact hgoes (l := .commFinish c) trivial ⟨hmem, hset, by rw [hc]; rfl⟩
  · rcases turn_of_not_settled hset with ⟨a, e, hturn⟩ | hturn
    · exact hgoes (l := .lib (.deliver a e)) trivial hturn
    · exact hgoes (l := .lib .call) trivial hturn

/-! ## What the channels hold then -/

omit [DecidableEq A] [DecidableEq Q] [Token D] [Fintype A] in
theorem Carries.refines (h : Carries net b chans s m) (hd : s.Drained) : Refines net chans s.toNetState m where
  queues := by
    obtain ⟨aq, huses, haccounts, n, p, hloose⟩ := h.toFollows.uses hd.settled.1 (by rw [hd.control]; rfl)
    rw [hd.started] at haccounts
    refine ⟨aq, aq, ?_, ?_, haccounts.calm hloose⟩
    · rw [NetState.settled_of_nil hd.settled.1]
      exact huses
    · rw [hd.control]
      exact .nil _
  config := h.config
  executes := h.executes
  state := h.state
  vars := h.vars
  chosen := by
    rw [hd.control]
    rintro _ _ ⟨⟩

structure Still (net : Network A K Z Q T V D) (b : Build) (s : Coupled A K Z Q T V D) : Prop extends Coupled.Drained s where
  disabled : ∀ a, (s.nodes a).active = true ∧ ((s.nodes a).canFire (net.fsm a) (net.check b s.toNetState a)).2 = false

omit [DecidableEq Q] [Token D] [Fintype A] in
theorem Carries.final [DecidableEq T] (h : Carries net b chans s m) (hreg : net.Regular) (hreq : net.Requested chans)
    (hs : Still net b s) : Persistent.Final (net.firing fun k => (chans k).depthCount) m := by
  intro f
  obtain ⟨ha, hfire⟩ := hs.disabled f.1
  have hx : s.control.isExecuting = false := by rw [hs.control]; rfl
  refine if_neg fun hchoice => ?_
  have hct := h.inv.canFire_eq (h.blank f.1) hs.settled (by rw [hs.control]; exact id) ha
  rw [(h.refines hs.toDrained).find_eq hreq hreg hs.settled.1 hx, hchoice] at hct
  rw [NodeBase.canFire_eq ha, hct] at hfire
  cases hfire

/-! ## Runs of a simulator -/

def coupledNext (net : Network A K Z Q T V D) (actors : List A) (turns : List (CoupledLabel A K Z)) (s : Coupled A K Z Q T V D) :
    Option (CoupledLabel A K Z × List (CoupledLabel A K Z)) :=
  if s.Settled ∧ s.control.isIdle = true then turns.head?.map fun l => (l, turns.tail)
  else (net.next actors [] s.toSimulation).map fun r => (.lib r.1, turns)

/-- At most `fuel` steps, with the moves made; `w` are those before. -/
def coupledRecord (net : Network A K Z Q T V D) (b : Build) (actors : List A) : Nat → List (CoupledLabel A K Z) →
    List (Move A K T) → Coupled A K Z Q T V D → Option (List (Move A K T) × Coupled A K Z Q T V D)
  | 0, _, w, s => some (w, s)
  | fuel + 1, turns, w, s =>
    match net.coupledNext actors turns s with
    | none => some (w, s)
    | some (l, turns) => (net.coupledStep b s l).bind (coupledRecord net b actors fuel turns (w ++ coupledEmits s.toNetState l))

theorem run_coupledRecord {actors : List A} {s₀ : Coupled A K Z Q T V D} {fuel : Nat} : ∀ {turns : List (CoupledLabel A K Z)}
    {w : List (Move A K T)} {s : Coupled A K Z Q T V D}, CoupledRun net b s₀ w s → ∀ {r},
    net.coupledRecord b actors fuel turns w s = some r → CoupledRun net b s₀ r.1 r.2 := by
  induction fuel with
  | zero =>
    intro turns w s hr r h
    cases h
    exact hr
  | succ fuel ih =>
    intro turns w s hr r h
    rw [coupledRecord] at h
    split at h
    · cases h
      exact hr
    · obtain ⟨s₁, hs, h⟩ := Option.bind_eq_some_iff.mp h
      exact ih (hr.step hs) h

end Network

namespace feeding

open Network

def turns : List (CoupledLabel Bool Unit Empty) :=
  [.lib (.reset (.inr true)), .lib (.reset (.inl (.inl ()))), .lib (.reset (.inr false)), .lib (.run false), .lib (.run true),
    .lib (.run true), .commFinish (.source () 1), .lib (.run false), .commFinish (.sink () 1), .lib (.run true),
    .commFinish (.sink () 1), .lib (.run true), .commFinish (.source () 1), .commFinish (.source () 1)]

def coupledRecorded (fuel : Nat) (turns : List (CoupledLabel Bool Unit Empty)) :
    Option (FifoChan Nat Bool × List (Move Bool Unit Nat) × Coupled Bool Unit Empty Nat Nat Nat Nat) :=
  (chan 2 [4]).bind fun ch =>
    (feeding.coupledRecord .checked [false, true] fuel turns [] (coupledStart (fun _ => ch) fun _ => 0)).map fun r => (ch, r)

theorem run_coupledRecorded {fuel : Nat} {turns : List (CoupledLabel Bool Unit Empty)} {ch : FifoChan Nat Bool}
    {w : List (Move Bool Unit Nat)} {s : Coupled Bool Unit Empty Nat Nat Nat Nat}
    (h : coupledRecorded fuel turns = some (ch, w, s)) : chan 2 [4] = some ch ∧
      CoupledRun feeding .checked (coupledStart (fun _ => ch) fun _ => 0) w s := by
  rw [coupledRecorded] at h
  obtain ⟨ch₁, hch, h⟩ := Option.bind_eq_some_iff.mp h
  obtain ⟨r, hr, h⟩ := Option.map_eq_some_iff.mp h
  cases h
  exact ⟨hch, run_coupledRecord .start hr⟩

end feeding

namespace Network

variable {A K Z Q T V D : Type} [DecidableEq A] [DecidableEq K] [DecidableEq Z] [DecidableEq Q] [Token D] [Fintype A]

/-! ## Results -/

/-- A coupled simulator fires what the library's own scheduler fires after the same resets, however
late it finishes the commits: no other transitions, and all of them with the same tokens, states and
variables when everything has arrived and no actor can fire. -/
theorem coupled_agrees [DecidableEq T] (net : Network A K Z Q T V D) (b : Build) {chans : K → FifoChan D Bool} {vars : A → V}
    {s : Simulation A K Z Q T V D} {s' : Coupled A K Z Q T V D} {rs rs' : List (Move A K T)} {fs fs' : List (A × T)}
    {reader writer : K → A} (hreg : net.Regular) (hp : net.PointToPoint reader writer)
    (hstable : ∀ d, (∀ k, d k ≤ (chans k).depthCount) → net.Stable d fun k => (chans k).depthCount)
    (hbuilt : net.Elaborated b chans) (hrs : ∀ mv ∈ rs, mv.fired = none) (hperm : rs'.Perm rs)
    (hr : Run net b (start chans vars) (rs ++ fs.map fun f => .fire f.1 f.2) s) (hq : s.Quiet)
    (hd : ∀ a, (s.nodes a).callbackDriven = true)
    (hr' : CoupledRun net b (coupledStart chans vars) (rs' ++ fs'.map fun f => .fire f.1 f.2) s') :
    fs'.Subperm fs ∧ (Still net b s' → fs'.Perm fs ∧ (∀ k, (s'.chans k).contents = (s.chans k).contents) ∧
      (∀ a, (s'.nodes a).currentState = (s.nodes a).currentState) ∧ s'.vars = s.vars) := by
  obtain ⟨m, hm, hshows, hfinal⟩ := hr.final hreg hbuilt hq hd
  obtain ⟨m', h', hm'⟩ := hr'.carries hreg hbuilt
  obtain ⟨hsub, hsame⟩ := hp.agrees hreg (hstable _ fun _ => Nat.le_refl _) hrs hperm hm hfinal (hm' hstable)
  refine ⟨hsub, fun hstill => ?_⟩
  obtain ⟨hperm', rfl⟩ := hsame (h'.final hreg hbuilt.requested hstill)
  have hshows' := (h'.refines hstill.toDrained).shows hstill.settled.1 (by rw [hstill.control]; rfl)
  exact ⟨hperm', hshows.agrees hshows'⟩

theorem coupled_agrees_feeding : ∃ (s : Simulation Bool Unit Empty Nat Nat Nat Nat) (s' : Coupled Bool Unit Empty Nat Nat Nat Nat),
    s.vars true = 15 ∧ (∀ k, (s'.chans k).contents = (s.chans k).contents) ∧ s'.vars = s.vars := by
  obtain ⟨ch, s, hch, hbuilt, hr, hq, hd, hsum⟩ := feeding.quiet_recorded 2 [4] [false, true]
    [.inl (.inl ()), .inr false, .inr true] ([.resetChan (), .resetNode false, .resetNode true] ++
      [(false, 0), (true, 0), (true, 0), (false, 1), (true, 0)].map fun f => .fire f.1 f.2) 15 (by decide) (by decide +kernel)
  have hrun : ((feeding.coupledRecorded 200 feeding.turns).any fun r =>
      decide (r.2.1 = [.resetNode true, .resetChan (), .resetNode false] ++
          [(false, 0), (true, 0), (false, 1), (true, 0), (true, 0)].map (fun f => .fire f.1 f.2) ∧ r.2.2.Drained ∧
        ∀ a, (r.2.2.nodes a).active = true ∧
          ((r.2.2.nodes a).canFire (feeding.fsm a) (feeding.check .checked r.2.2.toNetState a)).2 = false)) = true := by
    decide +kernel
  obtain ⟨⟨ch', w, s'⟩, hrec, hrun⟩ := (Option.any_eq_true _ _).mp hrun
  obtain ⟨rfl, hdrained, hdisabled⟩ := of_decide_eq_true hrun
  obtain ⟨hch', hr'⟩ := feeding.run_coupledRecorded hrec
  rw [hch, Option.some.injEq] at hch'
  subst hch'
  obtain ⟨_, hsame⟩ := coupled_agrees feeding .checked feeding.regular feeding.pointToPoint (fun _ _ => feeding.stable) hbuilt
    (by simp [Move.fired]) (by decide) hr hq hd hr'
  obtain ⟨_, hchans, _, hvars⟩ := hsame ⟨hdrained, hdisabled⟩
  exact ⟨s, s', hsum, hchans, hvars⟩

end Network

end SysteMoC
