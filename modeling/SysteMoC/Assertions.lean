import SysteMoC.CachedKept
import SysteMoC.NetworkDataflow

/-!
# Assertions

In a run of regular rules no assertion fails: not those of the channels, and not those of
the nodes, whatever listener is told next and whatever is asked of the simulator.
-/

namespace SysteMoC

open CachedChoice (Call Awake Made Signalled Doomed Sorted Turned Kept)

/-! ## The calls of a FIFO -/

namespace ChanKind

variable {T ε : Type} [SmocEvent ε]

/-- A FIFO makes its events inactive before it makes others active. -/
theorem calls_split (ch ch' : FifoChan T ε) (op : FifoOp T) : ∃ rs ns, ChanKind.fifo.calls ch ch' op = rs ++ ns ∧
    (∀ c ∈ rs, c.2 = Call.reset) ∧ ∀ c ∈ ns, c.2 = Call.notify := by
  have hdecreased : ∀ (em : EventMapManager ε) n, ∀ c ∈ em.decreasedCountCalls n, c.2 = Call.reset := by
    intro em n c hc
    obtain ⟨_, _, rfl⟩ := List.mem_map.mp hc
    rfl
  have hincreased : ∀ (em : EventMapManager ε) n, ∀ c ∈ em.increasedCountCalls n, c.2 = Call.notify := by
    intro em n c hc
    obtain ⟨_, _, rfl⟩ := List.mem_map.mp hc
    rfl
  have hresets : ∀ em : EventMapManager ε, ∀ c ∈ em.resetCalls, c.2 = Call.reset := by
    intro em c hc
    obtain ⟨_, _, rfl⟩ := List.mem_map.mp hc
    rfl
  have hdata : ∀ {cs : List (Nat × Call)} {call : Call}, (∀ c ∈ cs, c.2 = call) → ∀ c ∈ FifoChan.dataCalls cs, c.2 = call := by
    intro cs call h c hc
    obtain ⟨c', hc', rfl⟩ := List.mem_map.mp hc
    exact h c' hc'
  have hspace : ∀ {cs : List (Nat × Call)} {call : Call}, (∀ c ∈ cs, c.2 = call) → ∀ c ∈ FifoChan.spaceCalls cs, c.2 = call := by
    intro cs call h c hc
    obtain ⟨c', hc', rfl⟩ := List.mem_map.mp hc
    exact h c' hc'
  have hboth : ∀ {l l' : List (EventRequest × Call)} {call : Call}, (∀ c ∈ l, c.2 = call) → (∀ c ∈ l', c.2 = call) →
      ∀ c ∈ l ++ l', c.2 = call := by
    intro l l' call h h' c hc
    rcases List.mem_append.mp hc with hc | hc
    · exact h c hc
    · exact h' c hc
  have hnone : ∀ {call : Call}, ∀ c ∈ ([] : List (EventRequest × Call)), c.2 = call := by
    intro _ c hc
    cases hc
  cases op with
  | write => exact ⟨[], [], rfl, hnone, hnone⟩
  | entryStart => exact ⟨_, [], (List.append_nil _).symm, hspace (hdecreased _ _), hnone⟩
  | entryFinish n dropped =>
    cases dropped with
    | true => exact ⟨[], _, rfl, hnone, hspace (hincreased _ _)⟩
    | false => exact ⟨[], _, rfl, hnone, hdata (hincreased _ _)⟩
  | outletStart => exact ⟨_, [], (List.append_nil _).symm, hdata (hdecreased _ _), hnone⟩
  | outletFinish => exact ⟨[], _, rfl, hnone, hspace (hincreased _ _)⟩
  | doReset =>
    refine ⟨_, _, List.append_assoc _ _ _, hboth (hspace (hresets _)) (hdata (hresets _)), hboth (hspace (hincreased _ _))
      (hdata (hincreased _ _))⟩

theorem sorted_calls {E : Type} (f : EventRequest → E) (ch ch' : FifoChan T ε) (op : FifoOp T) :
    Sorted ((ChanKind.fifo.calls ch ch' op).map fun c => (f c.1, c.2)) := by
  obtain ⟨rs, ns, heq, hr, hn⟩ := calls_split ch ch' op
  rw [heq, List.map_append]
  refine CachedChoice.sorted_append (fun c hc => ?_) fun c hc => ?_
  · obtain ⟨c', hc', rfl⟩ := List.mem_map.mp hc
    exact hr c' hc'
  · obtain ⟨c', hc', rfl⟩ := List.mem_map.mp hc
    exact hn c' hc'

end ChanKind

namespace Network

/-! ## Choices that do not vanish -/

section
variable {A K Z Q T V D : Type} [DecidableEq K] [DecidableEq Z]

/-- No choice of an actor is lost to an event that becomes active. -/
structure Keeping (net : Network A K Z Q T V D) (b : Build) (s : NetState A K Z Q T V D) : Prop where
  sorted : Sorted s.calls
  turned : Turned s.isActive s.calls fun w => ∃ a, w ∈ s.signals a
  kept : ∀ a q, (s.nodes a).executing = false → (s.nodes a).callbackDriven = true → (s.nodes a).currentState = some q →
    Kept (net.options b s a q) s.isActive s.calls (s.signals a) (s.nodes a).ct

variable {net : Network A K Z Q T V D} {b : Build} {s s' : NetState A K Z Q T V D} {a : A} {t : T} {k : K} {o : FifoOp D}

theorem Inv.keeping (h : Inv net b s) (hs : s.Settled) : Keeping net b s where
  sorted := by
    rw [hs.1]
    exact CachedChoice.sorted_nil
  turned := CachedChoice.turned_none fun w hw => by
    obtain ⟨a, hw⟩ := hw
    rw [hs.2 a] at hw
    cases hw
  kept a q hx hd hq := by
    rw [h.ct_eq hs hx hd hq]
    exact CachedChoice.kept_searched

/-- Calls that start: what they make inactive covers the tokens that change. -/
theorem Inv.started (h : Inv net b s) (hs : s.Settled) {chans : K → FifoChan D Bool} {calls : List (NetEvent K Z × Call)}
    (hsorted : Sorted calls) (hactive : ∀ k, (chans k).isActiveAt = (s.chans k).isActiveAt)
    (htokens : ∀ a t, (s.nodes a).executing = false → Awake s.isActive (net.rule a t).ioPatternWaiter →
      { s with chans, calls }.tokens b (net.rule a t) ≠ s.tokens b (net.rule a t) →
        Doomed calls (net.rule a t).ioPatternWaiter) : Keeping net b { s with chans, calls } where
  sorted := hsorted
  turned := CachedChoice.turned_none fun w hw => by
    obtain ⟨a, hw⟩ := hw
    rw [show (s.signals a) = ∅ from hs.2 a] at hw
    cases hw
  kept a q hx hd hq := by
    have hact : NetState.isActive { s with chans, calls } = s.isActive := by
      funext e
      cases e with
      | chan k e => exact congrFun (hactive k) e
      | sae z => rfl
    rw [hact]
    have hct : (s.nodes a).ct = (net.options b s a q).list.find? ((net.options b s a q).enabled s.isActive) := h.ct_eq hs hx hd hq
    refine CachedChoice.kept_changed hct rfl rfl fun t _ ha hne => htokens a t hx ha fun heq => hne ?_
    simp only [options, heq]

/-- Tokens that an actor may read are changed by a reset of the channel alone. -/
theorem Inv.read_kept [Token D] (h : Inv net b s) (hs : s.Settled) (hplain : net.kind k = .fifo) (hkept : o.Kept)
    (hg : (s.chans k).Guarded o) (hread : ∀ n, o = .outletStart n → (s.nodes (net.reader k)).executing = true)
    {ch : FifoChan D Bool} (hch : (net.kind k).step b (s.chans k) o = some ch) (hx : (s.nodes a).executing = false)
    (ha : Awake s.isActive (net.rule a t).ioPatternWaiter) (hreset : o ≠ .doReset) {info : PortInInfo K}
    (hinfo : info ∈ (net.rule a t).portInInfos) (hk : info.port = k) {i : Nat} (hi : i < info.required) :
    FifoOutlet.read b (ch.withEventsOf (s.chans k)) info.required i = FifoOutlet.read b (s.chans k) info.required i := by
  subst hk
  obtain ⟨_, c, v, p, hsound, hle⟩ := h.available hs.1 ha hinfo
  refine ChanKind.read_step hsound.areas hkept (fun n hn => ?_) hreset hg hch (by omega)
  have hreads := hread n hn
  rw [← net.reader_eq a t info hinfo hplain, hx] at hreads
  cases hreads

theorem Inv.keeping_chanOp [Token D] (h : Inv net b s) (hs : s.Settled) (hplain : net.kind k = .fifo) (hkept : o.Kept)
    (hg : (s.chans k).Guarded o) (hread : ∀ n, o = .outletStart n → (s.nodes (net.reader k)).executing = true)
    (ho : net.chanOp b k o s = some s') : Keeping net b s' := by
  obtain ⟨ch, hch, rfl⟩ := chanOp_cases ho
  have hnew : ∀ k', k' ≠ k → Function.update s.chans k (ch.withEventsOf (s.chans k)) k' = s.chans k' := fun k' hk =>
    Function.update_of_ne hk _ _
  refine h.started hs ?_ (fun k' => ?_) fun a t hx ha hne => ?_
  · rw [hplain]
    exact ChanKind.sorted_calls _ _ _ o
  · by_cases hk : k' = k
    · subst hk
      rw [Function.update_self]
      funext e
      cases e with
      | data n => rfl
      | space n => rfl
    · rw [hnew k' hk]
  · by_cases hport : o = .doReset ∧ ∃ info ∈ (net.rule a t).portInInfos, info.port = k
    · obtain ⟨rfl, info, hinfo, rfl⟩ := hport
      refine ⟨_, mem_waiter hinfo, List.mem_map.mpr ⟨(.data info.required, .reset), ?_, rfl⟩⟩
      have hsorted := ChanKind.sorted_calls id (s.chans info.port) ch .doReset
      have hcovered : (EventRequest.data info.required, Call.renotify) ∈ (net.kind info.port).calls
          (s.chans info.port) ch .doReset ∨
          _ := ChanKind.covered (.inl rfl) (h.available hs.1 ha hinfo).1
      refine hcovered.resolve_left fun hcall => ?_
      rw [hplain] at hcall
      exact hsorted.plain _ (List.mem_map.mpr ⟨_, hcall, rfl⟩) rfl
    · refine absurd (tokens_congr fun info hinfo i hi => ?_) hne
      by_cases hk : info.port = k
      · have hreset : o ≠ .doReset := fun ho => hport ⟨ho, info, hinfo, hk⟩
        have hsame := h.read_kept hs hplain hkept hg hread hch hx ha hreset hinfo hk hi
        simp only [hk, Function.update_self]
        exact hsame
      · simp only [hnew info.port hk]

end

section
variable {A K Z Q T V D : Type} [DecidableEq A] [DecidableEq K] [DecidableEq Z] [DecidableEq Q] {net : Network A K Z Q T V D}
  {b : Build} {s s' : Simulation A K Z Q T V D} {a : A} {t : T} {e : Finset (NetEvent K Z)}

omit [DecidableEq Q] in
theorem Keeping.deliver (h : Keeping net b s.toNetState) (hi : (s.nodes a).Idle (net.fsm a)) (hs : net.deliver b a e s = some s') :
    Keeping net b s'.toNetState := by
  obtain ⟨n, sent, hd, rfl⟩ := deliver_cases hi hs
  simp only [Simulation.notifyActivation_toNetState, Simulation.setNode_toNetState, logSearch_toNetState]
  refine ⟨h.sorted, h.turned.mono fun w hw => ?_, fun a' q hx hdriven hq => ?_⟩
  · obtain ⟨a', hw⟩ := hw
    refine ⟨a', ?_⟩
    by_cases ha : a' = a
    · subst ha
      simp only [Function.update_self] at hw
      exact Finset.mem_of_mem_erase hw
    · simp only [Function.update_of_ne ha] at hw
      exact hw
  · by_cases ha : a' = a
    · subst ha
      simp only [Function.update_self] at hx hdriven hq ⊢
      cases hd with
      | executing hx' =>
        rw [hx'] at hx
        cases hx
      | activated | deactivated =>
        have hcur : (s.nodes a').currentState = some q := hq
        rw [NodeBase.searchActiveTransition_ct, hcur]
        exact CachedChoice.kept_searched
      | ignored _ _ hct =>
        rw [hct]
        exact CachedChoice.kept_none
    · simp only [Function.update_of_ne ha] at hx hdriven hq ⊢
      exact h.kept a' q hx hdriven hq

omit [DecidableEq A] [DecidableEq Q] in
theorem Keeping.nextCall (h : Keeping net b s.toNetState) (hi : ∀ a, (s.nodes a).Idle (net.fsm a)) (hs : ∀ a, s.signals a = ∅)
    (hn : nextCall s = some s') : Keeping net b s'.toNetState := by
  unfold Network.nextCall at hn
  split at hn
  · cases hn
  · rename_i c calls hcalls
    cases hn
    have hsorted := h.sorted
    rw [hcalls] at hsorted
    refine ⟨hsorted.tail, ?_, fun a q hx hdriven hq => ?_⟩
    · refine hsorted.turned NetState.made_perform fun w hw => ?_
      obtain ⟨a, hw⟩ := hw
      exact (Finset.mem_filter.mp hw).2
    · have hkept := h.kept a q hx hdriven hq
      rw [hcalls, hs a] at hkept
      have hlisten : (s.nodes a).listening = (net.fsm a).am q :=
        (hi a).listening.trans (NodeBase.required_of hdriven hq)
      have hoptions : net.options b (s.perform c) a q = net.options b s.toNetState a q := by
        simp only [options, tokens_perform]
        rfl
      rw [← hoptions] at hkept
      refine hkept.called NetState.made_perform fun t ht hsig => Finset.mem_filter.mpr ⟨?_, hsig⟩
      rw [hlisten]
      exact List.mem_toFinset.mpr (List.mem_map_of_mem ht)

variable [Token D]

theorem Inv.keeping_doReset {r : (K ⊕ Z) ⊕ A} (h : Inv net b s.toNetState) (hs : s.Settled) (hplain : ∀ k, net.kind k = .fifo)
    (hr : net.doReset b r s = some s') : Keeping net b s'.toNetState := by
  rcases r with (k | z) | a
  · obtain ⟨s₁, ho, heq⟩ := Option.bind_eq_some_iff.mp hr
    cases heq
    exact h.keeping_chanOp (o := .doReset) hs (hplain k) trivial trivial (by rintro _ ⟨⟩) ho
  · cases hr
    exact h.started hs (CachedChoice.sorted_notify (by simp)) (fun _ => rfl) fun _ _ _ _ hne => absurd rfl hne
  · cases hr
    refine (h.resetNode hs a).keeping ?_
    obtain ⟨n, sent, _, heq⟩ := resetNode_cases (b := b) (h.idle a)
    rw [heq]
    simp only [Simulation.notifyActivation_toNetState, Simulation.setNode_toNetState, logSearch_toNetState]
    exact hs

theorem Inv.keeping_doTask {task : Task A K Z D} {todo : List (Task A K Z D)} (h : Inv net b s.toNetState) (hs : s.Settled)
    (hplain : ∀ k, net.kind k = .fifo) (hc : s.control = .executing a t (task :: todo))
    (hw : WithinCounts s.toNetState (.step : Label A K Z)) (ht : net.doTask b a t task todo s = some s') :
    Keeping net b s'.toNetState := by
  have hafter := h.doTask hs hc hw ht
  have hrest : Inv net b { s.toNetState with control := .executing a t todo } := by
    refine h.setControl (fun a' => by rw [hc]; exact Iff.rfl) ?_
    rintro _ _ _ ⟨⟩ task' hmem
    exact h.todo a t _ hc task' (List.mem_cons_of_mem _ hmem)
  have hproper : net.Proper a task := h.todo a t _ hc task List.mem_cons_self
  have hx : (s.nodes a).executing = true := by
    rw [h.executing a, hc]
    rfl
  unfold WithinCounts at hw
  rw [hc] at hw
  cases task with
  | op k o =>
    obtain ⟨s₁, ho, heq⟩ := Option.bind_eq_some_iff.mp ht
    cases heq
    refine hrest.keeping_chanOp hs (hplain k) hproper.1 hw (fun n hn => ?_) ho
    rw [← hproper.2 n hn (hplain k)]
    exact hx
  | copy k k' n =>
    obtain ⟨⟨head, ch⟩, _, heq⟩ := Option.bind_eq_some_iff.mp ht
    cases heq
    exact hafter.keeping hs
  | produce z n =>
    obtain ⟨_, _, heq⟩ := Option.bind_eq_some_iff.mp ht
    cases heq
    exact hafter.keeping hs
  | reset r => exact Inv.keeping_doReset (s := { s with control := .executing a t todo }) hrest hs hplain ht

variable [Fintype A]

theorem Keeping.step {l : Label A K Z} (h : Keeping net b s.toNetState) (hinv : Inv net b s.toNetState)
    (hplain : ∀ k, net.kind k = .fifo) (hw : WithinCounts s.toNetState l) (hs : net.step b s l = some s') :
    Keeping net b s'.toNetState := by
  have hafter := hinv.step hw hs
  cases l with
  | deliver a e => exact h.deliver (hinv.idle a) (Option.ite_none_right_eq_some.mp hs).2
  | call =>
    obtain ⟨hnone, hs⟩ := Option.ite_none_right_eq_some.mp hs
    exact h.nextCall hinv.idle hnone hs
  | reset r =>
    obtain ⟨⟨hset, _⟩, hs⟩ := Option.ite_none_right_eq_some.mp hs
    exact hinv.keeping_doReset hset hplain hs
  | setActive a flag =>
    obtain ⟨⟨hset, _⟩, hs⟩ := Option.ite_none_right_eq_some.mp hs
    obtain ⟨n, sent, _, rfl⟩ := setActive_cases (hinv.idle a) hs
    refine hafter.keeping ?_
    simp only [Simulation.notifyActivation_toNetState, Simulation.setNode_toNetState, logSearch_toNetState]
    exact hset
  | setUseActivationCallback a flag =>
    obtain ⟨⟨hset, _⟩, hs⟩ := Option.ite_none_right_eq_some.mp hs
    obtain ⟨n, sent, _, heq⟩ := setUseActivationCallback_cases (b := b) flag (hinv.idle a)
    cases hs
    refine hafter.keeping ?_
    simp only [heq, Simulation.notifyActivation_toNetState, Simulation.setNode_toNetState, logSearch_toNetState]
    exact hset
  | run a =>
    obtain ⟨⟨hset, _⟩, hs⟩ := Option.ite_none_right_eq_some.mp hs
    cases hs
    exact hafter.keeping hset
  | step =>
    obtain ⟨hset, hs⟩ := Option.ite_none_right_eq_some.mp hs
    unfold Network.proceed at hs
    split at hs
    · cases hs
    · refine hafter.keeping ?_
      cases poll_cases hs with
      | inactive => exact hset
      | done =>
        simp only [Simulation.setNode_toNetState, logPoll_toNetState]
        exact hset
      | fire =>
        simp only [Simulation.setNode_toNetState, logFire_toNetState]
        exact hset
    · cases hs
      exact hafter.keeping hset
    · cases hs
      refine hafter.keeping ?_
      simp only [Network.finish, Simulation.setNode_toNetState, logSearch_toNetState]
      exact hset
    · rename_i hc
      exact hinv.keeping_doTask hset hplain hc hw hs

omit [DecidableEq A] [DecidableEq Q] [Token D] [Fintype A] in
theorem keeping_start {chans : K → FifoChan D Bool} {vars : A → V} :
    Keeping net b (start chans vars : Simulation A K Z Q T V D).toNetState where
  sorted := CachedChoice.sorted_nil
  turned := CachedChoice.turned_none fun w hw => by
    obtain ⟨a, hw⟩ := hw
    cases hw
  kept := by rintro _ _ _ _ ⟨⟩

end

end Network

/-! ## Assertions of a node -/

namespace NodeBase

variable {Q T W : Type} [DecidableEq Q] [DecidableEq W] {fsm : RuntimeFSM Q T W} {n n₁ : NodeBase Q T W} {b : Build}
  {check : T → Bool} {e : W} {isActive : Bool} {sent : Option Bool}

omit [DecidableEq Q] in
theorem signaledReturn_isSome (h : n.executing = false → n.signalingEvent = some e) :
    ∃ n₁ remove, n.signaledReturn b e = some (n₁, remove) := by
  cases hx : n.executing with
  | true =>
    rw [signaledReturn, hx]
    exact ⟨_, _, rfl⟩
  | false =>
    rw [signaledReturn, hx, Bool.not_false, if_pos rfl, b.assert_of (h hx)]
    exact ⟨_, _, rfl⟩

omit [DecidableEq Q] in
theorem Idle.signaled_isSome (h : n.Idle fsm) (hd : n.callbackDriven = true) (hkept : n.executing = false → isActive = true →
      b.debugAssert (¬ (n.ct.isSome ∧ (n.searchActiveTransition fsm check).ct.isNone)) = some ()) :
    ∃ n₁ sent, n.signaled b fsm check e isActive = some (n₁, sent) ∧ (n₁.executing = false → n₁.signalingEvent = some e) := by
  have htrue : ∀ [Decidable True], b.assert True = some () := b.assert_of trivial
  obtain ⟨cs, ct, ex, ac, use, sig, rem, lis⟩ := n
  cases h.signalingEvent
  cases h.signalingEventRemove
  rw [signaled, b.assert_of hd]
  cases ex with
  | true => exact ⟨_, _, rfl, by rintro ⟨⟩⟩
  | false =>
    simp only [Option.bind_eq_bind, Option.bind_some, Bool.not_false, if_true, htrue]
    cases isActive with
    | true =>
      simp only [if_true]
      exact ⟨_, _, Option.bind_eq_some_iff.mpr ⟨(), hkept rfl rfl, rfl⟩, fun _ => rfl⟩
    | false =>
      cases ct with
      | none => exact ⟨_, _, rfl, fun _ => rfl⟩
      | some t => exact ⟨_, _, rfl, fun _ => rfl⟩

omit [DecidableEq Q] in
theorem setActive_isSome {flag : Bool} (h : flag = true → n.executing = false) : (n.setActive b fsm check flag).isSome := by
  obtain ⟨cs, ct, ex, ac, use, sig, rem, lis⟩ := n
  cases cs with
  | none => rfl
  | some q =>
    unfold setActive
    simp only
    split
    · rfl
    · split
      · rename_i hon
        have hflag : flag = true := (Bool.and_eq_true_iff.mp (Bool.and_eq_true_iff.mp hon).2).1
        have hassert : b.assert (ex = false) = some () := b.assert_of (h hflag)
        exact Option.isSome_iff_exists.mpr ⟨_, Option.bind_eq_some_iff.mpr ⟨(), hassert, rfl⟩⟩
      · rfl

omit [DecidableEq Q] [DecidableEq W] in
theorem canFire_eq (ha : n.active = true) : (n.canFire fsm check).2 = (n.canFire fsm check).1.ct.isSome := by
  rw [canFire, if_pos ha]

omit [DecidableEq Q] [DecidableEq W] in
theorem schedule_some {t : T} (ht : n.ct = some t) (hcheck : check t = true) (hx : n.executing = false) :
    n.schedule b check = some ({ n with executing := true }, t) := by
  rw [schedule, ht]
  refine Option.bind_eq_some_iff.mpr ⟨t, rfl, ?_⟩
  simp only [b.assert_of hcheck, b.assert_of hx]
  rfl

end NodeBase

/-! ## Assertions of a network -/

namespace Network

variable {A K Z Q T V D : Type} [DecidableEq A] [DecidableEq K] [DecidableEq Z] [DecidableEq Q] {net : Network A K Z Q T V D}
  {b : Build} {chans : K → FifoChan D Bool} {vars : A → V} {s s' : Simulation A K Z Q T V D} {m : Marking A K Q V D} {a : A}
  {t : T} {e : Finset (NetEvent K Z)} {w : List (Move A K T)}
  {P : (K → Option (AbsQueue D)) → (K → Option (AbsQueue D)) → Prop}

omit [DecidableEq A] [DecidableEq Q] in
theorem Inv.callbackDriven_of_signals {s : NetState A K Z Q T V D} (h : Inv net b s) (he : e ∈ s.signals a) :
    (s.nodes a).callbackDriven = true := by
  have hlistening := h.signals a he
  rw [(h.idle a).listening, NodeBase.required] at hlistening
  by_contra hd
  rw [if_neg hd] at hlistening
  cases hlistening

omit [DecidableEq Q] in
theorem Inv.deliver_isSome (h : Inv net b s.toNetState) (he : e ∈ s.signals a)
    (hkeeping : b.debug = true → Keeping net b s.toNetState) : (net.deliver b a e s).isSome := by
  have hd := h.callbackDriven_of_signals he
  have hkept : (s.nodes a).executing = false → decide (Awake s.isActive e) = true →
      b.debugAssert (¬ ((s.nodes a).ct.isSome ∧
        ((s.nodes a).searchActiveTransition (net.fsm a) (net.check b s.toNetState a)).ct.isNone)) = some () := by
    intro hx ha
    cases hdebug : b.debug with
    | false =>
      rw [Build.debugAssert, hdebug]
      rfl
    | true =>
      refine b.debugAssert_of fun hlost => ?_
      obtain ⟨hct, hnone⟩ := hlost
      have hkeep := hkeeping hdebug
      cases hq : (s.nodes a).currentState with
      | none =>
        -- without a runtime state nothing is listened to
        have hlistening := h.signals a he
        rw [(h.idle a).listening, NodeBase.required_none hq] at hlistening
        cases hlistening
      | some q =>
        have hfind := (hkeep.kept a q hx hd hq).find_isSome (hkeep.turned.mono fun w hw => ⟨a, hw⟩) he (of_decide_eq_true ha) hct
        rw [NodeBase.searchActiveTransition_ct, hq] at hnone
        have hfind' : ((net.transitions a q).find? (net.check b s.toNetState a)).isSome := hfind
        rw [Option.isSome_iff_ne_none] at hfind'
        exact hfind' (Option.isNone_iff_eq_none.mp hnone)
  obtain ⟨n₁, sent, hsignaled, hsignaling⟩ := (h.idle a).signaled_isSome (e := e) hd hkept
  obtain ⟨n₂, remove, hreturn⟩ := NodeBase.signaledReturn_isSome (b := b) hsignaling
  obtain ⟨rfl, _⟩ := (h.idle a).delivered hsignaled hreturn
  unfold Network.deliver
  simp only [hsignaled, hreturn, Option.bind_eq_bind, Option.bind_some]
  split
  · rw [b.assert_of (p := True) trivial]
    rfl
  · rfl

omit [DecidableEq A] [DecidableEq Q] in
theorem Inv.check_of_canFire (h : Inv net b s.toNetState) (hnone : (s.nodes a).currentState = none → (s.nodes a).ct = none)
    (hs : s.Settled) (hc : ¬ s.control.Executes a) (ha : (s.nodes a).active = true)
    (hct : ((s.nodes a).canFire (net.fsm a) (net.check b s.toNetState a)).1.ct = some t) :
    net.check b s.toNetState a t = true := by
  rw [h.canFire_eq hnone hs hc ha] at hct
  obtain ⟨q, _, hfind⟩ := Option.bind_eq_some_iff.mp hct
  exact List.find?_some hfind

omit [DecidableEq Q] in
theorem Inv.poll_isSome (h : Inv net b s.toNetState) (hnone : (s.nodes a).currentState = none → (s.nodes a).ct = none)
    (hs : s.Settled) (hc : s.control = .polling a) : (net.poll b a s).isSome := by
  have hnot : ¬ s.control.Executes a := by
    rw [hc]
    exact id
  have hx : (s.nodes a).executing = false := by
    rw [← Bool.not_eq_true, h.executing a]
    exact hnot
  unfold Network.poll
  split
  · rename_i ha
    have hcheck := fun t => h.check_of_canFire (t := t) hnone hs hnot ha
    obtain ⟨hidle, hx', _⟩ := canFire_same (h.idle a) (rfl : ((s.nodes a).canFire (net.fsm a) (net.check b s.toNetState a)).1 = _)
    have hfire := (NodeBase.canFire_eq ha : ((s.nodes a).canFire (net.fsm a) (net.check b s.toNetState a)).2 = _)
    generalize (s.nodes a).canFire (net.fsm a) (net.check b s.toNetState a) = r at hcheck hx' hfire
    obtain ⟨n, fire⟩ := r
    simp only at hcheck hx' hfire ⊢
    split
    · rename_i hf
      rw [hfire] at hf
      obtain ⟨t, ht⟩ := Option.isSome_iff_exists.mp hf
      have hsame : (net.logFire b a n s).toNetState = s.toNetState := logFire_toNetState
      unfold logFire logPoll at hsame
      rw [hsame, NodeBase.schedule_some ht (hcheck t ht) (hx'.trans hx)]
      rfl
    · rfl
  · rfl

def Turn (s : Simulation A K Z Q T V D) : Label A K Z → Prop
  | .deliver a e => e ∈ s.signals a
  | .call => (∀ a, s.signals a = ∅) ∧ s.calls ≠ []
  | .reset _ => s.Settled ∧ s.control.isIdle = true
  | .setActive a flag => s.Settled ∧ s.control.mayCall = true ∧ (flag = true → (s.nodes a).executing = false)
  | .setUseActivationCallback _ _ => s.Settled ∧ s.control.mayCall = true
  | .run a => s.Settled ∧ s.control.isIdle = true ∧ s.request a = true
  | .step => s.Settled ∧ s.control.isIdle = false

variable [Token D]

theorem Follows.doTask_isSome {task : Task A K Z D} {todo : List (Task A K Z D)} (h : Follows net chans P s.toNetState m)
    (hs : s.Settled) (hc : s.control = .executing a t (task :: todo)) : (net.doTask b a t task todo s).isSome := by
  cases task with
  | op k o =>
    obtain ⟨_, s₁, hop, _⟩ := h.op (b := b) (fun _ _ => True) hs.1 hc fun _ _ _ _ _ _ _ => trivial
    rw [Network.doTask, hop]
    rfl
  | copy k k' n =>
    obtain ⟨_, head, ch, hcopy, _⟩ := h.copy (b := b) (fun _ _ => True) hs.1 hc fun _ _ _ _ _ _ => trivial
    rw [Network.doTask, hcopy]
    rfl
  | produce | reset =>
    obtain ⟨_, _, _, hperforms, _⟩ := h.queues
    rw [hc] at hperforms
    cases hperforms with
    | cons hfits => exact hfits.elim

variable [Fintype A]

theorem Follows.reset_isSome {r : (K ⊕ Z) ⊕ A} (h : Follows net chans P s.toNetState m) (hl : Turn s (.reset r)) :
    (net.step b s (.reset r)).isSome := by
  have hl : s.Settled ∧ s.control.isIdle = true := hl
  rw [Network.step, if_pos hl]
  rcases r with (k | z) | a
  · obtain ⟨s₁, hop, _⟩ := h.resetChan (b := b) (fun _ _ => True) hl.1.1 (Control.eq_idle hl.2) k fun _ _ => trivial
    rw [Network.doReset, hop]
    rfl
  · rfl
  · rfl

theorem Inv.tells_isSome {l : Label A K Z} (h : Inv net b s.toNetState) (hkeeping : b.debug = true → Keeping net b s.toNetState)
    (ht : l.Tells) (hl : Turn s l) : (net.step b s l).isSome := by
  cases l with
  | deliver a e =>
    have hl : e ∈ s.signals a := hl
    rw [Network.step, if_pos hl]
    exact h.deliver_isSome hl hkeeping
  | call =>
    rw [Network.step, if_pos hl.1, Network.nextCall]
    cases hcalls : s.calls with
    | nil => exact absurd hcalls hl.2
    | cons => rfl
  | setActive a flag =>
    rw [Network.step, if_pos ⟨hl.1, hl.2.1⟩]
    have hsome : ((s.nodes a).setActive b (net.fsm a) (net.check b s.toNetState a) flag).isSome :=
      NodeBase.setActive_isSome hl.2.2
    obtain ⟨⟨n, sent⟩, hn⟩ := Option.isSome_iff_exists.mp hsome
    rw [Network.setActive, hn]
    rfl
  | setUseActivationCallback a flag =>
    have hl : s.Settled ∧ s.control.mayCall = true := hl
    rw [Network.step, if_pos hl]
    rfl
  | reset | run | step => exact ht.elim

theorem Refines.step_isSome {l : Label A K Z} (h : Refines net chans s.toNetState m) (hinv : Inv net b s.toNetState)
    (htold : Told s) (hkeeping : b.debug = true → Keeping net b s.toNetState) (hl : Turn s l) : (net.step b s l).isSome := by
  cases l with
  | deliver | call | setActive | setUseActivationCallback => exact hinv.tells_isSome hkeeping trivial hl
  | reset r => exact h.toFollows.reset_isSome hl
  | run a =>
    have hl : s.Settled ∧ s.control.isIdle = true ∧ s.request a = true := hl
    rw [Network.step, if_pos hl]
    rfl
  | step =>
    rw [Network.step, if_pos hl.1, Network.proceed]
    cases hc : s.control with
    | idle =>
      have hnot := hl.2
      rw [hc] at hnot
      cases hnot
    | polling a => exact hinv.poll_isSome (htold.actor a).none hl.1 hc
    | acting a t => rfl
    | executing a t todo =>
      cases todo with
      | nil => rfl
      | cons task todo => exact h.toFollows.doTask_isSome hl.1 hc

theorem Run.keeping [DecidableEq T] (hreg : net.Regular) (hbuilt : net.Elaborated b chans)
    (hplain : ∀ k, net.kind k = .fifo) (hr : Run net b (Network.start chans vars) w s) : Keeping net b s.toNetState := by
  induction hr with
  | start => exact keeping_start
  | step hr hs ih =>
    obtain ⟨hinv, _, _, _, h⟩ := hr.refines hreg hbuilt
    exact ih.step hinv hplain (h.withinCounts hs) hs

end Network

end SysteMoC
