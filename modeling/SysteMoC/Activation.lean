import SysteMoC.NetworkSound

/-!
# Requests and notifications

The choice of an actor that hears of its events is announced: a schedule of it is
requested, and the last call of `notifyActivation` was a positive one.
-/

namespace SysteMoC

open CachedChoice (Call Awake)

namespace Network

variable {A K Z Q T V D : Type} [DecidableEq A] [DecidableEq K] [DecidableEq Z] {net : Network A K Z Q T V D} {b : Build}
  {s s' : Simulation A K Z Q T V D} {a a' : A} {t : T}

omit [DecidableEq K] [DecidableEq Z] in
theorem lookup_notifyActivation_self {sent : Option Bool} :
    (s.notifyActivation a sent).flags.lookup a = sent.or (s.flags.lookup a) := by
  cases sent with
  | none => rfl
  | some activation => exact List.lookup_cons_self

omit [DecidableEq K] [DecidableEq Z] in
theorem lookup_notifyActivation_of_ne {sent : Option Bool} (h : a' ≠ a) :
    (s.notifyActivation a sent).flags.lookup a' = s.flags.lookup a' := by
  cases sent with
  | none => rfl
  | some activation =>
    show List.lookup a' ((a, activation) :: s.flags) = _
    rw [List.lookup_cons, beq_false_of_ne h]

structure ToldAt (s : Simulation A K Z Q T V D) (a : A) : Prop where
  none : (s.nodes a).currentState = none → (s.nodes a).ct = none
  requested : (s.nodes a).executing = false → (s.nodes a).callbackDriven = true → (s.nodes a).ct.isSome →
    s.request a = true ∨ s.control = .polling a
  flagged : (s.nodes a).executing = false → (s.nodes a).callbackDriven = true → (s.nodes a).ct.isSome →
    s.flags.lookup a = some true ∨ s.control = .polling a ∧ s.polled a = true

structure Told (s : Simulation A K Z Q T V D) : Prop where
  actor : ∀ a, ToldAt s a
  settled : ∀ a, s.control = .polling a → s.Settled

omit [DecidableEq K] [DecidableEq Z] in
theorem ToldAt.congr (h : ToldAt s a) (hn : s'.nodes a = s.nodes a) (hr : s'.request a = s.request a)
    (hf : s'.flags.lookup a = s.flags.lookup a) (hp : s'.polled a = s.polled a)
    (hc : s.control = .polling a → s'.control = .polling a) : ToldAt s' a where
  none := by
    rw [hn]
    exact h.none
  requested := by
    rw [hn, hr]
    exact fun hx hd hct => (h.requested hx hd hct).imp_right hc
  flagged := by
    rw [hn, hf, hp]
    exact fun hx hd hct => (h.flagged hx hd hct).imp_right fun h => ⟨hc h.1, h.2⟩

/-- An actor keeps what is announced while another one searches and sends. -/
theorem ToldAt.answered {n : NodeBase Q T (Finset (NetEvent K Z))} {sent : Option Bool} {q : Option Q} {searches polled : Bool}
    (h : ToldAt s a') (ha : a' ≠ a) (hc : s.control ≠ .polling a') {s₁ : Simulation A K Z Q T V D} (hn : s₁.nodes = s.nodes)
    (hr : s₁.request = s.request) (hf : s₁.flags = s.flags) (hp : s₁.polled = s.polled) :
    ToldAt (((net.logSearch b a q searches polled s₁).setNode a n).notifyActivation a sent) a' := by
  refine h.congr ?_ ?_ ?_ ?_ fun h => absurd h hc
  · simp only [Simulation.notifyActivation_toNetState, Simulation.setNode_toNetState, logSearch_toNetState, hn,
      Function.update_of_ne ha]
  · rw [Simulation.notifyActivation_request]
    cases sent with
    | none => exact congrFun (logSearch_request.trans hr) a'
    | some activation => exact (Function.update_of_ne ha _ _).trans (congrFun (logSearch_request.trans hr) a')
  · rw [lookup_notifyActivation_of_ne ha]
    exact congrArg (List.lookup a') (logSearch_flags.trans hf)
  · rw [Simulation.notifyActivation_polled]
    refine (congrFun logSearch_polled a').trans ?_
    split
    · rw [Function.update_of_ne ha, hp]
    · rw [hp]

omit [DecidableEq K] [DecidableEq Z] in
theorem Told.silent (h : Told s) (hs : Silent s s') : Told s' := by
  have hnot : ∀ a, s.control ≠ .polling a := fun a hc => hs.busy a hc (h.settled a hc)
  refine ⟨fun a => (h.actor a).congr ?_ ?_ ?_ ?_ fun hc => absurd hc (hnot a), fun a hc => absurd (hs.control a hc) (hnot a)⟩
  · rw [hs.nodes]
  · rw [hs.request]
  · rw [hs.flags]
  · rw [hs.polled]

/-- An actor that searches sends what it finds, unless that was announced before. -/
theorem toldAt_sent {n : NodeBase Q T (Finset (NetEvent K Z))} {sent : Option Bool} {q : Option Q} {searches polled : Bool}
    {s₁ : Simulation A K Z Q T V D} (hnone : n.currentState = none → n.ct = none)
    (hsent : n.executing = false → n.callbackDriven = true → n.ct.isSome →
      sent = some true ∨ sent = none ∧ s₁.request a = true ∧ s₁.flags.lookup a = some true) :
    ToldAt (((net.logSearch b a q searches polled s₁).setNode a n).notifyActivation a sent) a := by
  have hnode : (((net.logSearch b a q searches polled s₁).setNode a n).notifyActivation a sent).nodes a = n := by
    simp only [Simulation.notifyActivation_toNetState, Simulation.setNode_toNetState, Function.update_self]
  have hrequest : (((net.logSearch b a q searches polled s₁).setNode a n).notifyActivation a sent).request a =
      sent.getD (s₁.request a) := by
    rw [Simulation.notifyActivation_request]
    cases sent with
    | none => exact congrFun logSearch_request a
    | some activation => exact Function.update_self ..
  have hflags : (((net.logSearch b a q searches polled s₁).setNode a n).notifyActivation a sent).flags.lookup a =
      sent.or (s₁.flags.lookup a) := by
    rw [lookup_notifyActivation_self]
    exact congrArg (fun l => sent.or (List.lookup a l)) logSearch_flags
  constructor
  · rw [hnode]
    exact hnone
  · rw [hnode, hrequest]
    intro hx hd hct
    rcases hsent hx hd hct with rfl | ⟨rfl, hr, _⟩
    · exact .inl rfl
    · exact .inl hr
  · rw [hnode, hflags]
    intro hx hd hct
    rcases hsent hx hd hct with rfl | ⟨rfl, _, hf⟩
    · exact .inl rfl
    · exact .inl hf

theorem Told.delivered {e : Finset (NetEvent K Z)} {n : NodeBase Q T (Finset (NetEvent K Z))} {sent : Option Bool} (h : Told s)
    (he : e ∈ s.signals a) {check : T → Bool} {isActive : Bool} {s₁ : Simulation A K Z Q T V D} {searches : Bool}
    (hs₁ : s₁ = net.logSearch b a (s.nodes a).currentState searches false
      { s with signals := Function.update s.signals a ((s.signals a).erase e) })
    (hn : NodeBase.Delivered (net.fsm a) b check isActive (s.nodes a) n sent) :
    Told ((s₁.setNode a n).notifyActivation a sent) := by
  have hnot : ∀ a, s.control ≠ .polling a := by
    intro a' hc
    rw [(h.settled a' hc).2 a] at he
    exact absurd he (Finset.notMem_empty e)
  subst hs₁
  constructor
  · intro a'
    by_cases ha : a' = a
    · subst ha
      have hact := h.actor a'
      refine toldAt_sent ?_ fun hx hd hct => ?_
      · cases hn with
        | executing | ignored => exact hact.none
        | activated | deactivated =>
          intro hq
          rw [NodeBase.searchActiveTransition_ct]
          rw [show (s.nodes a').currentState = none from hq]
          rfl
      · cases hn with
        | executing hx' =>
          rw [hx'] at hx
          cases hx
        | activated => exact .inl (if_pos hct)
        | deactivated _ _ hold =>
          refine .inr ⟨if_neg fun hno => ?_, ?_, ?_⟩
          · rw [Option.isNone_iff_eq_none.mp hno] at hct
            cases hct
          · exact (hact.requested hx hd hold).resolve_right (hnot a')
          · exact (hact.flagged hx hd hold).resolve_right fun h => hnot a' h.1
        | ignored _ _ hold =>
          rw [hold] at hct
          cases hct
    · exact (h.actor a').answered ha (hnot a') rfl rfl rfl rfl
  · intro a' hc
    simp only [Simulation.notifyActivation_toNetState, Simulation.setNode_toNetState, logSearch_toNetState] at hc
    exact absurd hc (hnot a')

theorem Told.reset {n : NodeBase Q T (Finset (NetEvent K Z))} {sent : Option Bool} {check : T → Bool} {vars : A → V}
    {control : Control A K Z T D} {q : Option Q} {searches polled : Bool} (h : Told s) (hc : ∀ a, s.control ≠ .polling a)
    (hc' : ∀ a, control ≠ .polling a) (hn : NodeBase.WasReset (net.fsm a) check (s.nodes a) n sent) :
    Told (((net.logSearch b a q searches polled { s with vars, control }).setNode a n).notifyActivation a sent) := by
  constructor
  · intro a'
    by_cases ha : a' = a
    · subst ha
      refine toldAt_sent ?_ fun hx hd hct => .inl ?_
      · rw [hn.currentState]
        rintro ⟨⟩
      · rw [hn.callbackDriven] at hd
        rw [hn.sent, if_pos hd, hct]
    · exact (h.actor a').answered ha (hc a') rfl rfl rfl rfl
  · intro a' hctl
    simp only [Simulation.notifyActivation_toNetState, Simulation.setNode_toNetState, logSearch_toNetState] at hctl
    exact absurd hctl (hc' a')

theorem Told.switched {n : NodeBase Q T (Finset (NetEvent K Z))} {sent : Option Bool} {check : T → Bool} {on : Bool} {q : Option Q}
    {searches polled : Bool} (h : Told s) (hc : ∀ a, s.control ≠ .polling a)
    (hn : NodeBase.Switched (net.fsm a) check on (s.nodes a) n sent) :
    Told (((net.logSearch b a q searches polled s).setNode a n).notifyActivation a sent) := by
  constructor
  · intro a'
    by_cases ha : a' = a
    · subst ha
      have hact := h.actor a'
      have hsent := hn.sent
      have hfound := hn.ct
      refine toldAt_sent ?_ fun hx hd hct => ?_
      · intro hq
        rw [hn.currentState] at hq
        rw [hfound, hq]
        exact hact.none hq
      · rw [hn.callbackDriven] at hd
        subst hd
        rw [Bool.and_true] at hsent hfound
        split at hsent
        · exact .inl (hsent.trans (by rw [hct]))
        · rename_i hoff
          rw [if_neg hoff] at hfound
          rw [Bool.not_true, Bool.and_false, if_neg Bool.false_ne_true] at hsent
          rw [hfound] at hct
          rw [hn.executing] at hx
          have hdriven : (s.nodes a').callbackDriven = true := by
            cases hq : (s.nodes a').currentState with
            | none =>
              rw [hact.none hq] at hct
              cases hct
            | some q =>
              rw [hq] at hoff
              simpa using hoff
          exact .inr ⟨hsent, (hact.requested hx hdriven hct).resolve_right (hc a'),
            (hact.flagged hx hdriven hct).resolve_right fun h => hc a' h.1⟩
    · exact (h.actor a').answered ha (hc a') rfl rfl rfl rfl
  · intro a' hctl
    simp only [Simulation.notifyActivation_toNetState, Simulation.setNode_toNetState, logSearch_toNetState] at hctl
    exact absurd hctl (hc a')

omit [DecidableEq A] in
theorem canFire_none {n : NodeBase Q T (Finset (NetEvent K Z))} {check : T → Bool}
    (h : (s.nodes a).currentState = none → (s.nodes a).ct = none) (hn : n = ((s.nodes a).canFire (net.fsm a) check).1)
    (hq : n.currentState = none) : n.ct = none := by
  rcases canFire_cases hn with rfl | ⟨_, rfl⟩
  · exact h hq
  · rw [NodeBase.searchActiveTransition_ct]
    rw [show (s.nodes a).currentState = none from hq]
    rfl

theorem ToldAt.polling {n : NodeBase Q T (Finset (NetEvent K Z))} {control : Control A K Z T D} {q : Option Q}
    {searches polled : Bool} {s₁ : Simulation A K Z Q T V D} (h : ToldAt s a') (ha : a' ≠ a) (hc : s.control ≠ .polling a')
    (hs₁ : s₁ = net.logSearch b a q searches polled s ∨
      ∃ tl, s₁ = net.logGuards a tl (net.logSearch b a q searches polled s)) :
    ToldAt { s₁.setNode a n with control } a' := by
  have hn : s₁.toNetState = s.toNetState := by
    rcases hs₁ with rfl | ⟨tl, rfl⟩
    · exact logSearch_toNetState
    · exact logSearch_toNetState
  have hr : s₁.request = s.request := by
    rcases hs₁ with rfl | ⟨tl, rfl⟩
    · exact logSearch_request
    · exact logSearch_request
  have hf : s₁.flags = s.flags := by
    rcases hs₁ with rfl | ⟨tl, rfl⟩
    · exact logSearch_flags
    · exact logSearch_flags
  have hp : s₁.polled = if searches then Function.update s.polled a polled else s.polled := by
    rcases hs₁ with rfl | ⟨tl, rfl⟩
    · exact logSearch_polled
    · exact logSearch_polled
  refine h.congr ?_ (congrFun hr a') (congrArg (List.lookup a') hf) ?_ fun hc' => absurd hc' hc
  · simp only [Simulation.setNode_toNetState, Function.update_of_ne ha, hn]
  · refine (congrFun hp a').trans ?_
    split
    · exact Function.update_of_ne ha _ _
    · rfl

theorem Told.polled (h : Told s) (hc : s.control = .polling a) (hp : Polled net b a s s') : Told s' := by
  have hother : ∀ a' ≠ a, s.control ≠ .polling a' := by
    intro a' ha hc'
    cases hc.symm.trans hc'
    exact ha rfl
  cases hp with
  | inactive ha =>
    refine ⟨fun a' => ?_, by rintro _ ⟨⟩⟩
    by_cases ha' : a' = a
    · subst ha'
      refine ⟨(h.actor a').none, fun _ hd => ?_, fun _ hd => ?_⟩
      all_goals
        rw [show (s.nodes a').callbackDriven = false by rw [NodeBase.callbackDriven, ha, Bool.false_and]] at hd
        cases hd
    · exact (h.actor a').congr rfl rfl rfl rfl fun hc' => absurd hc' (hother a' ha')
  | done ha hn hct =>
    refine ⟨fun a' => ?_, by rintro _ ⟨⟩⟩
    by_cases ha' : a' = a
    · subst ha'
      constructor
      all_goals simp only [Simulation.setNode_toNetState, Function.update_self, hct]
      · exact fun _ => trivial
      · rintro _ _ ⟨⟩
      · rintro _ _ ⟨⟩
    · exact (h.actor a').polling ha' (hother a' ha') (.inl rfl)
  | fire ha hn hct hassert =>
    refine ⟨fun a' => ?_, by rintro _ ⟨⟩⟩
    by_cases ha' : a' = a
    · subst ha'
      constructor
      all_goals simp only [Simulation.setNode_toNetState, Function.update_self]
      · exact canFire_none (h.actor a').none hn
      · rintro ⟨⟩
      · rintro ⟨⟩
    · exact (h.actor a').polling ha' (hother a' ha') logFire_eq

omit [DecidableEq K] [DecidableEq Z] in
theorem Told.run (h : Told s) (hs : s.Settled) (hc : s.control = .idle) :
    Told { s with request := Function.update s.request a false, control := .polling a } := by
  have hnot : ∀ a', s.control ≠ .polling a' := by
    rw [hc]
    rintro _ ⟨⟩
  refine ⟨fun a' => ?_, fun _ _ => hs⟩
  by_cases ha : a' = a
  · subst ha
    exact ⟨(h.actor a').none, fun _ _ _ => .inr rfl,
      fun hx hd hct => .inl (((h.actor a').flagged hx hd hct).resolve_right fun h => hnot a' h.1)⟩
  · exact (h.actor a').congr rfl (Function.update_of_ne ha _ _) rfl rfl fun hc' => absurd hc' (hnot a')

variable [DecidableEq Q]

theorem Told.finished (h : Told s) (hi : (s.nodes a).Idle (net.fsm a)) (hs : s.Settled) (hc : s.control = .executing a t []) :
    Told (net.finish b a t s) := by
  have hn := hi.scheduleReturn (net.check b s.toNetState a) t
  have hnot : ∀ a', s.control ≠ .polling a' := by
    rw [hc]
    rintro _ ⟨⟩
  refine ⟨fun a' => ?_, fun _ _ => ?_⟩
  · by_cases ha : a' = a
    · subst ha
      constructor
      all_goals simp only [Network.finish, Simulation.setNode_toNetState, Function.update_self]
      · rw [hn.currentState]
        rintro ⟨⟩
      · exact fun _ _ _ => .inr trivial
      · intro _ hd _
        rw [hn.callbackDriven, NodeBase.callbackDriven, Bool.and_eq_true] at hd
        refine .inr ⟨trivial, ?_⟩
        refine (congrFun logSearch_polled a').trans ?_
        rw [if_pos hd.2, Function.update_self]
    · exact (h.actor a').polling ha (hnot a') (.inl rfl)
  · simp only [Network.finish, Simulation.setNode_toNetState, logSearch_toNetState]
    exact hs

variable [Token D] [Fintype A]

omit [Token D] [Fintype A] in
theorem Told.step {l : Label A K Z} (h : Told s) (hi : ∀ a, (s.nodes a).Idle (net.fsm a)) (hs : Stepped net b s l s') :
    Told s' := by
  cases hs with
  | silent hsame => exact h.silent hsame
  | delivered he hn => exact h.delivered he rfl hn
  | reset _ _ hc hc' hn => exact h.reset hc hc' hn
  | switched _ hset hc hn =>
    refine h.switched (fun a hpoll => ?_) hn
    rw [hpoll] at hc
    cases hc
  | run hset hc => exact h.run hset hc
  | polled hset hc hp => exact h.polled hc hp
  | finished hset hc => exact h.finished (hi _) hset hc

omit [DecidableEq K] [DecidableEq Z] [DecidableEq Q] [Token D] [Fintype A] in
theorem told_start {chans : K → FifoChan D Bool} {vars : A → V} : Told (start chans vars : Simulation A K Z Q T V D) where
  actor _ := ⟨fun _ => rfl, by rintro _ _ ⟨⟩, by rintro _ _ ⟨⟩⟩
  settled := by rintro _ ⟨⟩

/-- What holds in every state of a run within the counts. -/
theorem inv_told_run {chans : K → FifoChan D Bool} {vars : A → V} (h : net.Elaborated b chans)
    (hr : Relation.ReflTransGen (net.StepOf b fun s l => WithinCounts s.toNetState l) (start chans vars) s) :
    Inv net b s.toNetState ∧ Told s := by
  induction hr with
  | refl => exact ⟨inv_start h, told_start⟩
  | tail _ hstep ih =>
    obtain ⟨l, hw, hs⟩ := hstep
    exact ⟨ih.1.step hw hs, ih.2.step ih.1.idle (step_cases ih.1.idle hs)⟩

/-- A quiet simulation is a real deadlock: where nothing is requested, no actor that hears
of its events has an enabled transition. -/
theorem quiet_disabled (net : Network A K Z Q T V D) (b : Build) {chans : K → FifoChan D Bool} {vars : A → V}
    {s : Simulation A K Z Q T V D} (h : net.Elaborated b chans)
    (hr : Relation.ReflTransGen (net.StepOf b fun s l => WithinCounts s.toNetState l) (start chans vars) s)
    (hidle : s.control = .idle) (hs : s.Settled) (hquiet : ∀ a, s.request a = false) {a : A} {q : Q}
    (hd : (s.nodes a).callbackDriven = true) (hq : (s.nodes a).currentState = some q) :
    ∀ t ∈ net.transitions a q, net.check b s.toNetState a t = false := by
  obtain ⟨hinv, htold⟩ := inv_told_run h hr
  have hx : (s.nodes a).executing = false := by
    rw [← Bool.not_eq_true, hinv.executing a, hidle]
    exact id
  have hct := hinv.ct_eq hs hx hd hq
  cases hfound : (s.nodes a).ct with
  | none =>
    rw [hfound] at hct
    intro t ht
    exact Bool.eq_false_iff.mpr (List.find?_eq_none.mp hct.symm t ht)
  | some t =>
    rcases (htold.actor a).requested hx hd (by rw [hfound]; rfl) with hreq | hpoll
    · rw [hquiet a] at hreq
      cases hreq
    · rw [hidle] at hpoll
      cases hpoll

end Network

/-! ### A writer that commits more than it asks for -/

/-- A writer whose first rule has its port twice, and a reader that waits for a 6. -/
def overdrawing : Network Bool Unit Empty Nat Nat Unit Nat where
  kind _ := .fifo
  initialState _ := 0
  transitions a q := if a then [0] else if q < 2 then [q] else []
  destState a t := if a then 0 else t + 1
  rule a t :=
    let guard := if a then .land (.input () 1 1) (.expr fun s => s.2 = [[some 6]])
      else if t = 0 then .land (.output [.inl ()] 1 1) (.output [.inl ()] 2 2)
      else .output [.inl ()] 1 1
    ⟨guard, guard.inputs, guard.outputs, []⟩
  events_nil _ _ := rfl
  action a t v _ := (v, if a then [] else [(0, 0, if t = 0 then 1 else 6)])
  reset _ v := v
  chans := Empty.elim
  nodes := Empty.elim
  reader _ := true
  reader_eq a t info h _ := by
    cases a with
    | true => rfl
    | false =>
      by_cases ht : t = 0
      · simp [ht, Guard.inputs] at h
      · simp [ht, Guard.inputs] at h

namespace overdrawing

def chan (n : Nat) (l : List Nat) : Option (FifoChan Nat Bool) :=
  [.data 1, .space 1, .space 2].foldlM (ChanKind.fifo.request .release) (.new n l)

theorem elaborated {n : Nat} {l : List Nat} {ch : FifoChan Nat Bool} (hl : l.length ≤ n) (h : chan n l = some ch) :
    overdrawing.Elaborated .release fun _ => ch := by
  refine fun _ => ⟨n, l, _, hl, h, fun a t => ?_⟩
  cases a with
  | true => simp [overdrawing, Guard.inputs, Guard.outputs]
  | false =>
    by_cases ht : t = 0
    · simp [overdrawing, Guard.inputs, Guard.outputs, ht]
    · simp [overdrawing, Guard.inputs, Guard.outputs, ht]

def simulation (allowed : Simulation Bool Unit Empty Nat Nat Unit Nat → Label Bool Unit Empty → Prop)
    [∀ s, DecidablePred (allowed s)] (ch : FifoChan Nat Bool) : Option (Simulation Bool Unit Empty Nat Nat Unit Nat) :=
  overdrawing.simulate .release allowed [false, true] 60 [.inl (.inl ()), .inr false, .inr true]
      (Network.start (fun _ => ch) fun _ => ())

end overdrawing

namespace Network

/-- The writer overdraws its channel; later a 6 takes the place of the first token, and no event tells the reader. -/
theorem quiet_disabled_overdrawn : ∃ (chans : Unit → FifoChan Nat Bool) (s : Simulation Bool Unit Empty Nat Nat Unit Nat),
    overdrawing.Elaborated .release chans ∧
      Relation.ReflTransGen (overdrawing.StepOf .release fun _ _ => True) (start chans fun _ => ()) s ∧
      s.control = .idle ∧ s.Settled ∧ (∀ a, s.request a = false) ∧ (∀ a, (s.nodes a).callbackDriven = true) ∧
      (s.nodes true).currentState = some 0 ∧ 0 ∈ overdrawing.transitions true 0 ∧
      overdrawing.check .release s.toNetState true 0 = true := by
  have hrun : ((overdrawing.chan 3 [4]).any fun ch => (overdrawing.simulation (fun _ _ => True) ch).any fun s =>
      s.control.isIdle && decide (s.Settled ∧ (∀ a, s.request a = false) ∧ (∀ a, (s.nodes a).callbackDriven = true) ∧
        (s.nodes true).currentState = some 0 ∧ overdrawing.check .release s.toNetState true 0 = true)) = true := by
    decide +kernel
  obtain ⟨ch, hch, hrun⟩ := (Option.any_eq_true _ _).mp hrun
  obtain ⟨s, hs, hrun⟩ := (Option.any_eq_true _ _).mp hrun
  rw [Bool.and_eq_true, decide_eq_true_eq] at hrun
  obtain ⟨hidle, hset, hreq, hd, hq, hcheck⟩ := hrun
  exact ⟨_, s, overdrawing.elaborated (by decide) hch, simulate_reaches hs, Control.eq_idle hidle, hset, hreq, hd, hq,
    List.mem_singleton.mpr rfl, hcheck⟩

/-- With room for all that is written the reader rightly waits. -/
theorem quiet_disabled_roomy : ∃ (chans : Unit → FifoChan Nat Bool) (s : Simulation Bool Unit Empty Nat Nat Unit Nat),
    overdrawing.Elaborated .release chans ∧ (s.nodes true).currentState = some 0 ∧
      ∀ t ∈ overdrawing.transitions true 0, overdrawing.check .release s.toNetState true t = false := by
  have hrun : ((overdrawing.chan 5 []).any fun ch =>
      (overdrawing.simulation (fun s l => WithinCounts s.toNetState l) ch).any fun s =>
        s.control.isIdle && decide (s.Settled ∧ (∀ a, s.request a = false) ∧ (s.nodes true).callbackDriven = true ∧
          (s.nodes true).currentState = some 0)) = true := by
    decide +kernel
  obtain ⟨ch, hch, hrun⟩ := (Option.any_eq_true _ _).mp hrun
  obtain ⟨s, hs, hrun⟩ := (Option.any_eq_true _ _).mp hrun
  rw [Bool.and_eq_true, decide_eq_true_eq] at hrun
  obtain ⟨hidle, hset, hreq, hd, hq⟩ := hrun
  have helab := overdrawing.elaborated (by decide) hch
  exact ⟨_, s, helab, hq, quiet_disabled overdrawing .release helab (simulate_reaches hs) (Control.eq_idle hidle) hset hreq hd hq⟩

variable {A K Z Q T V D : Type} [DecidableEq A] [DecidableEq K] [DecidableEq Z] {net : Network A K Z Q T V D} {b : Build}
  {s s' : Simulation A K Z Q T V D} {a a' : A} {t : T} [DecidableEq Q] [Token D] [Fintype A]

/-! ## Lost choices -/

def Schedules (s : NetState A K Z Q T V D) (l : Label A K Z) (a : A) : Prop :=
  l = .step ∧ (s.control = .polling a ∨ ∃ t, s.control = .executing a t [])

/-- An active event does not take the last enabled transition from an actor that has one. -/
def Holds (net : Network A K Z Q T V D) (b : Build) (s : NetState A K Z Q T V D) : Label A K Z → Prop
  | .deliver a e => (s.nodes a).executing = false → Awake s.isActive e → (s.nodes a).ct.isSome →
      ∃ t ∈ (s.nodes a).currentState.elim [] (net.transitions a), net.check b s a t = true
  | _ => True

instance (net : Network A K Z Q T V D) (b : Build) (s : NetState A K Z Q T V D) : DecidablePred (Holds net b s) := fun l =>
  match l with
  | .deliver _ _ => inferInstanceAs (Decidable (_ → _ → _ → ∃ t ∈ _, _))
  | .call | .reset _ | .setActive _ _ | .setUseActivationCallback _ _ | .run _ | .step => inferInstanceAs (Decidable True)

/-- What the step did that left an actor without its choice, and whether it said so. -/
inductive Lost (net : Network A K Z Q T V D) (b : Build) (s : Simulation A K Z Q T V D) (a : A) :
    Label A K Z → List (A × Bool) → Prop where
  | vanished {e} (hx : (s.nodes a).executing = false) (ha : Awake s.isActive e)
      (hnone : ∀ t ∈ (s.nodes a).currentState.elim [] (net.transitions a), net.check b s.toNetState a t = false) :
      Lost net b s a (.deliver a e) s.flags
  | warned {e} (ha : ¬ Awake s.isActive e) : Lost net b s a (.deliver a e) ((a, false) :: s.flags)
  | reset {l} (hl : Resets s.toNetState l a) :
      Lost net b s a l (if (s.nodes a).callbackDriven then (a, false) :: s.flags else s.flags)
  | switched {l} (hl : ∃ flag, l = .setActive a flag ∨ l = .setUseActivationCallback a flag) :
      Lost net b s a l ((a, false) :: s.flags)

omit [Token D] [Fintype A] [DecidableEq Q] in
theorem lost_choice {n : NodeBase Q T (Finset (NetEvent K Z))} {sent : Option Bool} {q : Option Q} {searches polled : Bool}
    {s₁ : Simulation A K Z Q T V D} (hct : (s.nodes a).ct.isSome)
    (hct' : ((((net.logSearch b a' q searches polled s₁).setNode a' n).notifyActivation a' sent).nodes a).ct = none)
    (hn : s₁.nodes = s.nodes) : a = a' ∧ n.ct = none := by
  simp only [Simulation.notifyActivation_toNetState, Simulation.setNode_toNetState, logSearch_toNetState, hn] at hct'
  by_cases ha : a = a'
  · subst ha
    rw [Function.update_self] at hct'
    exact ⟨rfl, hct'⟩
  · rw [Function.update_of_ne ha] at hct'
    rw [hct'] at hct
    cases hct

omit [Token D] [Fintype A] [DecidableEq Q] in
theorem flags_sent {n : NodeBase Q T (Finset (NetEvent K Z))} {sent : Option Bool} {q : Option Q} {searches polled : Bool}
    {s₁ : Simulation A K Z Q T V D} (hf : s₁.flags = s.flags) :
    (((net.logSearch b a q searches polled s₁).setNode a n).notifyActivation a sent).flags =
      (sent.toList.map fun activation => (a, activation)) ++ s.flags := by
  rw [Simulation.notifyActivation_flags]
  exact congrArg _ (logSearch_flags.trans hf)

omit [Token D] [Fintype A] in
/-- Outside of its schedule an actor loses its choice in one of four ways. -/
theorem Stepped.lost {l : Label A K Z} (hs : Stepped net b s l s') (hct : (s.nodes a).ct.isSome) (hct' : (s'.nodes a).ct = none)
    (hsched : ¬ Schedules s.toNetState l a) : Lost net b s a l s'.flags := by
  have hkept : ∀ {n n' : NodeBase Q T (Finset (NetEvent K Z))}, n'.ct = n.ct → n.ct.isSome → n'.ct = none → False := by
    intro n n' heq h h'
    rw [← heq, h'] at h
    cases h
  cases hs with
  | silent hsame => exact (hkept (congrArg NodeBase.ct (congrFun hsame.nodes a)) hct hct').elim
  | run => exact (hkept rfl hct hct').elim
  | @delivered a' e n sent he hn =>
    obtain ⟨rfl, hnone⟩ := lost_choice hct hct' rfl
    rw [flags_sent rfl]
    cases hn with
    | executing => exact (hkept rfl hct hnone).elim
    | ignored _ _ h => exact (hkept rfl hct h).elim
    | deactivated _ ha =>
      rw [if_pos (Option.isNone_iff_eq_none.mpr hnone)]
      exact .warned (of_decide_eq_false ha)
    | activated hx ha =>
      rw [if_neg (by simp [hnone])]
      refine .vanished hx (of_decide_eq_true ha) fun t ht => ?_
      rw [NodeBase.searchActiveTransition_ct] at hnone
      cases hq : (s.nodes a).currentState with
      | none =>
        rw [hq] at ht
        cases ht
      | some q =>
        rw [hq] at ht hnone
        exact Bool.eq_false_iff.mpr (List.find?_eq_none.mp hnone t ht)
  | @reset _ a' n sent control hl _ _ _ hn =>
    obtain ⟨rfl, hnone⟩ := lost_choice hct hct' rfl
    have hflags : (sent.toList.map fun activation => (a, activation)) ++ s.flags =
        if (s.nodes a).callbackDriven then (a, false) :: s.flags else s.flags := by
      rw [hn.sent, hnone]
      split
      · rfl
      · rfl
    rw [flags_sent rfl, hflags]
    exact .reset hl
  | @switched _ a' n sent on hl _ _ hn =>
    obtain ⟨rfl, hnone⟩ := lost_choice hct hct' rfl
    rw [flags_sent rfl]
    have hfound := hn.ct
    have hsent := hn.sent
    split at hsent
    · rw [hsent, hnone]
      exact .switched hl
    · rename_i hoff
      rw [if_neg hoff] at hfound
      exact (hkept hfound hct hnone).elim
  | @polled a' _ _ hc hp =>
    by_cases ha : a = a'
    · exact absurd ⟨rfl, .inl (ha ▸ hc)⟩ hsched
    · exact (hkept (congrArg NodeBase.ct (hp.nodes_of_ne ha)) hct hct').elim
  | @finished a' t _ hc =>
    by_cases ha : a = a'
    · exact absurd ⟨rfl, .inr ⟨t, ha ▸ hc⟩⟩ hsched
    · simp only [Network.finish, Simulation.setNode_toNetState, logSearch_toNetState, Function.update_of_ne ha] at hct'
      exact (hkept rfl hct hct').elim

omit [Token D] [Fintype A] [DecidableEq Q] [DecidableEq A] [DecidableEq K] [DecidableEq Z] in
theorem not_resets_deliver {a' : A} {e : Finset (NetEvent K Z)} : ¬ Resets s.toNetState (.deliver a' e) a := by
  rintro (h | ⟨h, _⟩)
  · cases h
  · cases h

omit [Token D] [Fintype A] [DecidableEq Q] [DecidableEq A] in
theorem holds_of_ne {l : Label A K Z} (h : ∀ a e, l ≠ .deliver a e) : Holds net b s.toNetState l := by
  cases l with
  | deliver a e => exact absurd rfl (h a e)
  | _ => exact trivial

omit [Token D] [Fintype A] [DecidableEq Q] [DecidableEq A] in
/-- The step says so unless an active event took the last enabled transition, or the actor hears of no events. -/
theorem Lost.announced_iff {l : Label A K Z} {flags : List (A × Bool)} (hct : (s.nodes a).ct.isSome)
    (h : Lost net b s a l flags) : flags = (a, false) :: s.flags ↔
      Holds net b s.toNetState l ∧ (Resets s.toNetState l a → (s.nodes a).callbackDriven = true) := by
  have hsame : s.flags ≠ (a, false) :: s.flags := fun h => absurd (congrArg List.length h) (by simp)
  cases h with
  | vanished hx ha hnone =>
    refine iff_of_false hsame fun hh => ?_
    obtain ⟨t, ht, hcheck⟩ := hh.1 hx ha hct
    rw [hnone t ht] at hcheck
    cases hcheck
  | warned ha => exact iff_of_true rfl ⟨fun _ ha' => absurd ha' ha, fun hr => absurd hr not_resets_deliver⟩
  | reset hl =>
    have hholds : Holds net b s.toNetState l := by
      refine holds_of_ne ?_
      rintro a' e rfl
      exact not_resets_deliver hl
    cases hd : (s.nodes a).callbackDriven with
    | true => exact iff_of_true rfl ⟨hholds, fun _ => rfl⟩
    | false => exact iff_of_false hsame fun hh => absurd (hh.2 hl) Bool.false_ne_true
  | switched hl =>
    obtain ⟨flag, rfl | rfl⟩ := hl
    · exact iff_of_true rfl ⟨trivial, by rintro (⟨⟨⟩⟩ | ⟨⟨⟩, _⟩)⟩
    · exact iff_of_true rfl ⟨trivial, by rintro (⟨⟨⟩⟩ | ⟨⟨⟩, _⟩)⟩

/-- The choices of actors that hear of their events are right and announced, and none is lost unsaid. -/
theorem notifications_current (net : Network A K Z Q T V D) (b : Build) {chans : K → FifoChan D Bool} {vars : A → V}
    {s : Simulation A K Z Q T V D} (h : net.Elaborated b chans)
    (hr : Relation.ReflTransGen (net.StepOf b fun s l => WithinCounts s.toNetState l) (start chans vars) s) :
    (s.Settled → ∀ a q, (s.nodes a).executing = false → (s.nodes a).callbackDriven = true → (s.nodes a).currentState = some q →
      (s.nodes a).ct = (net.transitions a q).find? (net.check b s.toNetState a) ∧
        ((s.nodes a).ct.isSome → s.flags.lookup a = some true ∨ s.polled a = true)) ∧
      ∀ l s', net.step b s l = some s' → ∀ a, (s.nodes a).ct.isSome → (s'.nodes a).ct = none → ¬ Schedules s.toNetState l a →
        (s'.flags = (a, false) :: s.flags ↔
          Holds net b s.toNetState l ∧ (Resets s.toNetState l a → (s.nodes a).callbackDriven = true)) := by
  obtain ⟨hinv, htold⟩ := inv_told_run h hr
  constructor
  · intro hs a q hx hd hq
    exact ⟨hinv.ct_eq hs hx hd hq, fun hct => ((htold.actor a).flagged hx hd hct).imp_right And.right⟩
  · intro l s' hs a hct hct' hsched
    exact ((step_cases hinv.idle hs).lost hct hct' hsched).announced_iff hct

end Network

/-! ### Two readers of one channel -/

def sharing : Network Bool Unit Empty Nat Nat Unit Nat where
  kind _ := .multireader
  initialState _ := 0
  transitions a q := if a then [0] else if q = 0 then [0] else []
  destState a _ := if a then 0 else 1
  rule a _ :=
    let guard := if a then .land (.input () 1 1) (.expr fun s => s.2 = [[some 1]]) else .input () 1 1
    ⟨guard, guard.inputs, guard.outputs, []⟩
  events_nil _ _ := rfl
  action _ _ v _ := (v, [])
  reset _ v := v
  chans := Empty.elim
  nodes := Empty.elim
  reader _ := true
  reader_eq _ _ _ _ h := by cases h

namespace sharing

def chan (l : List Nat) : Option (FifoChan Nat Bool) := [.data 1].foldlM (ChanKind.multireader.request .release) (.new 2 l)

theorem elaborated {l : List Nat} {ch : FifoChan Nat Bool} (hl : l.length ≤ 2) (h : chan l = some ch) :
    sharing.Elaborated .release fun _ => ch := by
  refine fun _ => ⟨2, l, _, hl, h, fun a t => ?_⟩
  cases a with
  | true | false => simp [sharing, Guard.inputs, Guard.outputs]

def simulation (allowed : Simulation Bool Unit Empty Nat Nat Unit Nat → Label Bool Unit Empty → Prop)
    [∀ s, DecidablePred (allowed s)] (fuel : Nat) (ch : FifoChan Nat Bool) : Option (Simulation Bool Unit Empty Nat Nat Unit Nat) :=
  sharing.simulate .release allowed [false, true] fuel [.inl (.inl ()), .inr false, .inr true]
      (Network.start (fun _ => ch) fun _ => ())

end sharing

namespace Network

/-- The renotification takes the 1 away from the reader that was told of it. -/
theorem notifications_current_renotified :
    ∃ (chans : Unit → FifoChan Nat Bool) (s s' : Simulation Bool Unit Empty Nat Nat Unit Nat) (e : Finset (NetEvent Unit Empty)),
      sharing.Elaborated .release chans ∧
        Relation.ReflTransGen (sharing.StepOf .release fun s l => WithinCounts s.toNetState l) (start chans fun _ => ()) s ∧
        sharing.step .release s (.deliver true e) = some s' ∧ (s.nodes true).ct.isSome ∧ (s'.nodes true).ct = none ∧
        ¬ Schedules s.toNetState (.deliver true e) true ∧ s'.flags = s.flags := by
  have hrun : ((sharing.chan [1, 2]).any fun ch => (sharing.simulation (fun s l => WithinCounts s.toNetState l) 11 ch).any
      fun s => decide (s.nodes true).ct.isSome && (sharing.step .release s
        (.deliver true (sharing.rule true 0).ioPatternWaiter)).any fun s' =>
          decide ((s'.nodes true).ct = none ∧ s'.flags = s.flags)) = true := by
    decide +kernel
  obtain ⟨ch, hch, hrun⟩ := (Option.any_eq_true _ _).mp hrun
  obtain ⟨s, hs, hrun⟩ := (Option.any_eq_true _ _).mp hrun
  rw [Bool.and_eq_true, decide_eq_true_eq] at hrun
  obtain ⟨hct, hrun⟩ := hrun
  obtain ⟨s', hs', hrun⟩ := (Option.any_eq_true _ _).mp hrun
  obtain ⟨hct', hflags⟩ := of_decide_eq_true hrun
  exact ⟨_, s, s', _, sharing.elaborated (by decide) hch, simulate_reaches hs, hs', hct, hct',
    by rintro ⟨⟨⟩, _⟩, hflags⟩

/-- With two equal tokens the second reader keeps its choice. -/
theorem notifications_current_equal :
    ∃ (chans : Unit → FifoChan Nat Bool) (s : Simulation Bool Unit Empty Nat Nat Unit Nat), sharing.Elaborated .release chans ∧
      (s.nodes true).ct = (sharing.transitions true 0).find? (sharing.check .release s.toNetState true) ∧
      (s.flags.lookup true = some true ∨ s.polled true = true) ∧
      ∀ l s', sharing.step .release s l = some s' → ∀ a, (s.nodes a).ct.isSome → (s'.nodes a).ct = none →
        ¬ Schedules s.toNetState l a → (s'.flags = (a, false) :: s.flags ↔
          Holds sharing .release s.toNetState l ∧ (Resets s.toNetState l a → (s.nodes a).callbackDriven = true)) := by
  have hrun : ((sharing.chan [1, 1]).any fun ch => (sharing.simulation (fun s l => WithinCounts s.toNetState l) 13 ch).any
      fun s => decide (s.Settled ∧ (s.nodes true).executing = false ∧ (s.nodes true).callbackDriven = true ∧
        (s.nodes true).currentState = some 0 ∧ (s.nodes true).ct.isSome)) = true := by
    decide +kernel
  obtain ⟨ch, hch, hrun⟩ := (Option.any_eq_true _ _).mp hrun
  obtain ⟨s, hs, hrun⟩ := (Option.any_eq_true _ _).mp hrun
  obtain ⟨hset, hx, hd, hq, hct⟩ := of_decide_eq_true hrun
  have helab := sharing.elaborated (by decide) hch
  obtain ⟨hcurrent, hlost⟩ := notifications_current sharing .release helab (simulate_reaches hs)
  obtain ⟨hfind, htold⟩ := hcurrent hset true 0 hx hd hq
  exact ⟨_, s, helab, hfind, htold hct, hlost⟩

end Network

end SysteMoC
