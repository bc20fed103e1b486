import SysteMoC.Activation
import SysteMoC.FiringTasks

/-!
# Networks refine their dataflow nets

A firing takes effect when its action is called; what is left of it then changes
queues that no other actor looks at before it has ended.
-/

namespace SysteMoC

open CachedChoice (Call Awake)
open FifoChan (Uses Embodies SameConfig)

/-- What is left of a firing. -/
def Control.todo {A K Z T D : Type} : Control A K Z T D → List (Task A K Z D)
  | .executing _ _ todo => todo
  | _ => []

def Control.isExecuting {A K Z T D : Type} : Control A K Z T D → Bool
  | .executing _ _ _ => true
  | _ => false

def Control.isPolling {A K Z T D : Type} : Control A K Z T D → Bool
  | .polling _ => true
  | _ => false

theorem Control.todo_eq {A K Z T D : Type} {c : Control A K Z T D} (h : c.isExecuting = false) : c.todo = [] := by
  cases c with
  | idle | polling | acting => rfl
  | executing => cases h

theorem Control.ne_executing {A K Z T D : Type} {c : Control A K Z T D} (h : c.isExecuting = false) {a : A} {t : T}
    {todo : List (Task A K Z D)} : c ≠ .executing a t todo := by
  rintro rfl
  cases h

/-- Nothing has been reset yet. -/
def Marking.start {A K Q V D : Type} (vars : A → V) : Marking A K Q V D := ⟨fun _ => none, fun _ => none, vars⟩

def Marking.seen {A K Q V D : Type} (m : Marking A K Q V D) (aq : K → Option (AbsQueue D)) : Marking A K Q V D :=
  { m with queue := fun k => (aq k).map AbsQueue.visible }

@[simp] theorem Marking.queue_seen {A K Q V D : Type} {m : Marking A K Q V D} {aq : K → Option (AbsQueue D)} {k : K} :
    (m.seen aq).queue k = (aq k).map AbsQueue.visible := rfl

/-- The places that are not held back by commits that have yet to be finished. -/
def seenDepth {K D : Type} (depth : K → Nat) (aq : K → Option (AbsQueue D)) (k : K) : Nat :=
  (aq k).elim (depth k) fun a => depth k - (a.consumed.length + a.pipeline.length)

theorem AllCalm.seen {A K Q V D : Type} {m : Marking A K Q V D} {aq : K → Option (AbsQueue D)} (h : AllCalm m.queue aq) :
    m.seen aq = m := by
  refine congrArg (fun queue => { m with queue }) (funext fun k => ?_)
  have hk := h k
  generalize m.queue k = q at hk ⊢
  generalize aq k = q' at hk ⊢
  cases hk with
  | none => rfl
  | some hk => exact congrArg some hk.visible_eq

theorem AllCalm.seenDepth {K D : Type} {depth : K → Nat} {l : K → Option (List D)} {aq : K → Option (AbsQueue D)}
    (h : AllCalm l aq) : seenDepth depth aq = depth := by
  funext k
  have hk := h k
  rw [SysteMoC.seenDepth]
  generalize l k = q at hk
  generalize aq k = q' at hk ⊢
  cases hk with
  | none => rfl
  | some hk =>
    rw [Option.elim, hk.consumed, hk.pipeline]
    rfl

/-- The step tells a listener, or turns callbacks on or off. -/
def Label.Tells {A K Z : Type} : Label A K Z → Prop
  | .reset _ | .run _ | .step => False
  | _ => True

namespace Network

variable {A K Z Q T V D : Type} [DecidableEq K] [DecidableEq Z]

/-- The channels have the events the rules wait for. -/
def Requested (net : Network A K Z Q T V D) (chans : K → FifoChan D Bool) : Prop :=
  ∀ a t, (∀ info ∈ (net.rule a t).portInInfos, info.required ∈ (chans info.port).emmData.thresholds) ∧
    ∀ info ∈ (net.rule a t).portOutInfos, ∀ k, info.Feeds k → info.required ∈ (chans k).emmSpace.thresholds

/-- The marking is about the channels as they are when what is left of the firing is done, and the
states and variables that its end leaves; `P` says what it says of the queues now and then. -/
structure Follows (net : Network A K Z Q T V D) (chans : K → FifoChan D Bool)
    (P : (K → Option (AbsQueue D)) → (K → Option (AbsQueue D)) → Prop) (s : NetState A K Z Q T V D) (m : Marking A K Q V D) :
    Prop where
  queues : ∃ aq aq', (∀ k, (s.settled k).Uses (chans k).depthCount (aq k)) ∧
    Performs (fun k => (chans k).depthCount) (fun k => (chans k).initialTokens) s.control.todo aq aq' ∧ P aq aq'
  config : ∀ k, SameConfig (chans k) (s.settled k)
  executes : ∀ a t todo, s.control = .executing a t todo → m.state a = some (net.destState a t)
  state : ∀ a, (∀ t todo, s.control ≠ .executing a t todo) → m.state a = (s.nodes a).currentState
  vars : m.vars = s.vars

/-- The marking is what the channels hold then. -/
structure Refines (net : Network A K Z Q T V D) (chans : K → FifoChan D Bool) (s : NetState A K Z Q T V D)
    (m : Marking A K Q V D) : Prop extends Follows net chans (fun _ aq' => AllCalm m.queue aq') s m where
  chosen : ∀ a t, s.control = .acting a t → net.choice (fun k => (chans k).depthCount) m a = some t

variable {net : Network A K Z Q T V D} {b : Build} {chans : K → FifoChan D Bool} {s s' : NetState A K Z Q T V D}
  {m m' : Marking A K Q V D} {P P' : (K → Option (AbsQueue D)) → (K → Option (AbsQueue D)) → Prop}
  {aq : K → Option (AbsQueue D)} {a : A} {t : T} {k : K}

/-! ## Before the first step -/

omit [DecidableEq K] [DecidableEq Z] in
theorem Elaborated.channel [Token D] (h : net.Elaborated b chans) (k : K) : Uses (chans k).depthCount (chans k) none := by
  obtain ⟨n, l, rs, hl, hreq, _⟩ := h k
  obtain ⟨hunused, _⟩ := FifoChan.unused_requests hl hreq
  have hdepth : (chans k).depthCount = n := by
    rw [QueueRWPtr.depthCount, hunused.fsize_eq, Nat.add_sub_cancel]
  rw [hdepth]
  exact hunused

omit [DecidableEq K] [DecidableEq Z] in
theorem Elaborated.requested [Token D] (h : net.Elaborated b chans) : net.Requested chans := by
  intro a t
  refine ⟨fun info hinfo => ?_, fun info hinfo k hk => ?_⟩
  · obtain ⟨n, l, rs, hl, hreq, hrs⟩ := h info.port
    obtain ⟨_, _, hdata, _⟩ := FifoChan.unused_requests hl hreq
    exact hdata _ ((hrs a t).1 info hinfo rfl)
  · obtain ⟨n, l, rs, hl, hreq, hrs⟩ := h k
    obtain ⟨_, _, _, hspace⟩ := FifoChan.unused_requests hl hreq
    exact hspace _ ((hrs a t).2 info hinfo (PortOutInfo.feeds_iff.mp hk))

omit [DecidableEq Z] in
theorem follows_start [Token D] (h : net.Elaborated b chans) {vars : A → V} (hP : P (fun _ => none) fun _ => none) :
    Follows net chans P (start chans vars : Simulation A K Z Q T V D).toNetState (.start vars) where
  queues := ⟨fun _ => none, fun _ => none, h.channel, .nil _, hP⟩
  config _ := ⟨rfl, rfl, rfl⟩
  executes := by rintro _ _ _ ⟨⟩
  state _ _ := rfl
  vars := rfl

omit [DecidableEq Z] in
theorem refines_start [Token D] (h : net.Elaborated b chans) {vars : A → V} :
    Refines net chans (start chans vars : Simulation A K Z Q T V D).toNetState (.start vars) where
  toFollows := follows_start h fun _ => .none
  chosen := by rintro _ _ ⟨⟩

/-! ## What the actors see -/

omit [DecidableEq Z] in
theorem Follows.uses (h : Follows net chans P s m) (hs : s.calls = []) (htodo : s.control.todo = []) :
    ∃ aq, (∀ k, (s.chans k).Uses (chans k).depthCount (aq k)) ∧ P aq aq := by
  obtain ⟨aq, aq', huses, hperforms, hP⟩ := h.queues
  rw [htodo] at hperforms
  cases hperforms
  rw [NetState.settled_of_nil hs] at huses
  exact ⟨aq, huses, hP⟩

theorem Follows.active_iff (h : Follows net chans P s m) (hreq : net.Requested chans) (hreg : net.Regular) (hs : s.calls = [])
    (huses : ∀ k, (s.chans k).Uses (chans k).depthCount (aq k)) {e : NetEvent K Z}
    (he : e ∈ (net.rule a t).ioPatternWaiter) :
    s.isActive e = true ↔ (m.seen aq).Offers (seenDepth (fun k => (chans k).depthCount) aq) e := by
  have hconfig := h.config
  rw [NetState.settled_of_nil hs] at hconfig
  rcases List.mem_append.mp (List.mem_toFinset.mp he) with he | he
  · obtain ⟨info, hinfo, rfl⟩ := List.mem_map.mp he
    have hmem : info.required ∈ (s.chans info.port).emmData.thresholds := by
      rw [(hconfig info.port).data]
      exact (hreq a t).1 info hinfo
    rw [NetState.isActive, (huses info.port).data_iff hmem, Marking.Offers, Marking.queue_seen]
    cases aq info.port with
    | none => simp
    | some q => simp
  · obtain ⟨info, hinfo, he⟩ := List.mem_flatMap.mp he
    obtain ⟨p, hp, rfl⟩ := List.mem_map.mp he
    obtain ⟨k, rfl⟩ := Sum.isLeft_iff.mp (hreg.isLeft a t info hinfo p hp)
    have hmem : info.required ∈ (s.chans k).emmSpace.thresholds := by
      rw [(hconfig k).space]
      exact (hreq a t).2 info hinfo k (PortOutInfo.feeds_iff.mpr hp)
    have huse := huses k
    rw [RuntimeFiringRule.sinkEvent, NetState.isActive, (huses k).space_iff hmem, Marking.Offers, Marking.queue_seen, seenDepth]
    generalize aq k = q at huse
    cases q with
    | none => simp
    | some q =>
      have huse : Embodies (chans k).depthCount (s.chans k) q := huse
      have hle := huse.serves.counted.areas.fits
      simp only [Option.mem_some_iff, exists_eq_left', Option.map_some, Option.elim_some, AbsQueue.room]
      rw [huse.serves.counted.fsize_eq] at hle
      omega

omit [DecidableEq K] [DecidableEq Z] in
theorem tokens_eq (huses : ∀ k, (s.chans k).Uses (chans k).depthCount (aq k)) {depth : K → Nat}
    (hr : Ready depth (m.seen aq) (net.rule a t)) : s.tokens b (net.rule a t) = heads (m.seen aq) (net.rule a t) := by
  refine List.map_congr_left fun info hinfo => List.map_congr_left fun i hi => ?_
  have hi := List.mem_range.mp hi
  obtain ⟨l, hl, hlen⟩ := hr.1 info hinfo
  obtain ⟨q, hq, rfl⟩ := Option.map_eq_some_iff.mp hl
  have hk := huses info.port
  rw [hq] at hk
  have hk : Embodies (chans info.port).depthCount (s.chans info.port) q := hk
  rw [hk.read_eq (by omega) hi, Option.mem_def.mp hl, Option.bind_some]

theorem Follows.check_seen (h : Follows net chans P s m) (hreq : net.Requested chans) (hreg : net.Regular) (hs : s.calls = [])
    (huses : ∀ k, (s.chans k).Uses (chans k).depthCount (aq k)) :
    net.check b s a t = net.enabled (seenDepth (fun k => (chans k).depthCount) aq) (m.seen aq) a t := by
  have hawake : Awake s.isActive (net.rule a t).ioPatternWaiter ↔
      Ready (seenDepth (fun k => (chans k).depthCount) aq) (m.seen aq) (net.rule a t) := by
    rw [ready_iff]
    exact forall₂_congr fun e he => h.active_iff hreq hreg hs huses he
  have hvars : (m.seen aq).vars a = s.vars a := by rw [Marking.seen, h.vars]
  rw [check, enabled]
  by_cases hr : Ready (seenDepth (fun k => (chans k).depthCount) aq) (m.seen aq) (net.rule a t)
  · rw [decide_eq_true hr, decide_eq_true (hawake.mpr hr), tokens_eq huses hr, hvars]
  · rw [decide_eq_false hr, decide_eq_false (mt hawake.mp hr), Bool.false_and, Bool.false_and]

/-- What a search finds is what the dataflow net would fire by what is seen of it. -/
theorem Follows.find_seen (h : Follows net chans P s m) (hreq : net.Requested chans) (hreg : net.Regular) (hs : s.calls = [])
    (hc : s.control.isExecuting = false) (huses : ∀ k, (s.chans k).Uses (chans k).depthCount (aq k)) :
    ((s.nodes a).currentState.bind fun q => (net.transitions a q).find? (net.check b s a)) =
      net.choice (seenDepth (fun k => (chans k).depthCount) aq) (m.seen aq) a := by
  rw [choice, Marking.seen, h.state a fun t todo => Control.ne_executing hc]
  congr
  funext q
  exact CachedChoice.find?_congr fun t _ => h.check_seen hreq hreg hs huses

/-- A transition passes its check exactly if it is enabled in the dataflow net. -/
theorem Refines.check_eq (h : Refines net chans s m) (hreq : net.Requested chans) (hreg : net.Regular) (hs : s.calls = [])
    (htodo : s.control.todo = []) : net.check b s a t = net.enabled (fun k => (chans k).depthCount) m a t := by
  obtain ⟨aq, huses, hcalm⟩ := h.uses hs htodo
  rw [h.check_seen hreq hreg hs huses, hcalm.seen, hcalm.seenDepth]

/-- What a search finds is what the dataflow net would fire. -/
theorem Refines.find_eq (h : Refines net chans s m) (hreq : net.Requested chans) (hreg : net.Regular) (hs : s.calls = [])
    (hc : s.control.isExecuting = false) : ((s.nodes a).currentState.bind fun q => (net.transitions a q).find? (net.check b s a)) =
      net.choice (fun k => (chans k).depthCount) m a := by
  obtain ⟨aq, huses, hcalm⟩ := h.uses hs (Control.todo_eq hc)
  rw [h.find_seen hreq hreg hs hc huses, hcalm.seen, hcalm.seenDepth]

/-! ## Steps that do not touch the channels -/

omit [DecidableEq Z] in
theorem Follows.congr (h : Follows net chans P s m) (hsettled : s'.settled = s.settled) (hc : s'.control = s.control)
    (hv : s'.vars = s.vars) (hn : ∀ a, (s'.nodes a).currentState = (s.nodes a).currentState) : Follows net chans P s' m where
  queues := by
    rw [hsettled, hc]
    exact h.queues
  config := by
    rw [hsettled]
    exact h.config
  executes := by
    rw [hc]
    exact h.executes
  state := by
    intro a
    rw [hc, hn]
    exact h.state a
  vars := h.vars.trans hv.symm

omit [DecidableEq Z] in
theorem Refines.congr (h : Refines net chans s m) (hsettled : s'.settled = s.settled) (hc : s'.control = s.control)
    (hv : s'.vars = s.vars) (hn : ∀ a, (s'.nodes a).currentState = (s.nodes a).currentState) : Refines net chans s' m where
  toFollows := h.toFollows.congr hsettled hc hv hn
  chosen := by
    rw [hc]
    exact h.chosen

omit [DecidableEq Z] in
theorem Follows.setControl (control : Control A K Z T D) (h : Follows net chans P s m) (hc : s.control.isExecuting = false)
    (hc' : control.isExecuting = false) : Follows net chans P { s with control } m where
  queues := by
    have hqueues := h.queues
    rw [Control.todo_eq hc] at hqueues
    simp only [Control.todo_eq hc']
    exact hqueues
  config := h.config
  executes a t todo heq := absurd heq (Control.ne_executing hc')
  state a _ := h.state a fun t todo => Control.ne_executing hc
  vars := h.vars

omit [DecidableEq Z] in
theorem Refines.setControl (control : Control A K Z T D) (h : Refines net chans s m) (hc : s.control.isExecuting = false)
    (hc' : control.isExecuting = false)
    (hchosen : ∀ a t, control = .acting a t → net.choice (fun k => (chans k).depthCount) m a = some t) :
    Refines net chans { s with control } m where
  toFollows := h.toFollows.setControl control hc hc'
  chosen := hchosen

/-! ## Steps of a firing -/

omit [DecidableEq Z] in
theorem Follows.proceed {todo todo' : List (Task A K Z D)} (h : Follows net chans P s m) (hc : s.control = .executing a t todo)
    (hc' : s'.control = .executing a t todo') (hn : s'.nodes = s.nodes) (hv : s'.vars = s.vars)
    (hqueues : ∃ aq aq', (∀ k, (s'.settled k).Uses (chans k).depthCount (aq k)) ∧
      Performs (fun k => (chans k).depthCount) (fun k => (chans k).initialTokens) todo' aq aq' ∧ P' aq aq')
    (hconfig : ∀ k, SameConfig (chans k) (s'.settled k)) : Follows net chans P' s' m where
  queues := by
    rw [hc']
    exact hqueues
  config := hconfig
  executes a' t' todo'' heq := by
    rw [hc'] at heq
    cases heq
    exact h.executes a t todo hc
  state a' hne := by
    rw [hn]
    refine h.state a' fun t' todo'' heq => ?_
    rw [hc] at heq
    cases heq
    exact hne _ _ hc'
  vars := h.vars.trans hv.symm

omit [DecidableEq Z] in
theorem chanOp_of [Token D] (net : Network A K Z Q T V D) (s : NetState A K Z Q T V D) {o : FifoOp D} {ch : FifoChan D Bool}
    (hch : (net.kind k).step b (s.chans k) o = some ch) :
    ∃ s', net.chanOp b k o s = some s' ∧ s'.settled = Function.update s.chans k ch ∧
      s' = { s with chans := s'.chans, calls := s'.calls } := by
  refine ⟨{ s with
    chans := Function.update s.chans k (ch.withEventsOf (s.chans k))
    calls := ((net.kind k).calls (s.chans k) ch o).map fun c => (.chan k c.1, c.2) }, ?_, ?_, rfl⟩
  · rw [chanOp, hch]
    rfl
  · simp only [NetState.settled]
    rw [NetState.foldl_callChans, Function.update_self, ChanKind.step_calls hch, Function.update_idem]

theorem uses_update {chans : K → FifoChan D Bool} {depth : K → Nat} {aq : K → Option (AbsQueue D)} {ch : FifoChan D Bool}
    {q : AbsQueue D} (huses : ∀ k, (chans k).Uses (depth k) (aq k)) (h : Embodies (depth k) ch q) (k' : K) :
    (Function.update chans k ch k').Uses (depth k') (Function.update aq k (some q) k') := by
  by_cases hk : k' = k
  · subst hk
    simp only [Function.update_self]
    exact h
  · simp only [Function.update_of_ne hk]
    exact huses k'

theorem config_update {chans chans' : K → FifoChan D Bool} {ch : FifoChan D Bool} (hconfig : ∀ k, SameConfig (chans k) (chans' k))
    (h : SameConfig (chans' k) ch) (k' : K) : SameConfig (chans k') (Function.update chans' k ch k') := by
  by_cases hk : k' = k
  · subst hk
    rw [Function.update_self]
    exact (hconfig k').trans h
  · rw [Function.update_of_ne hk]
    exact hconfig k'

omit [DecidableEq Z] in
/-- The next operation of a firing is within the counts, and completes. -/
theorem Follows.op [Token D] (P' : (K → Option (AbsQueue D)) → (K → Option (AbsQueue D)) → Prop) {o : FifoOp D}
    {todo : List (Task A K Z D)} (h : Follows net chans P s m) (hs : s.calls = [])
    (hc : s.control = .executing a t (.op k o :: todo)) (hP : ∀ aq aq', ∀ q ∈ aq k, q.Within (chans k).depthCount o →
        q.Placed o → P aq aq' →
      P' (Function.update aq k (some (q.step (chans k).initialTokens o))) aq') : (s.chans k).Guarded o ∧
    ∃ s', net.chanOp b k o { s with control := .executing a t todo } = some s' ∧ s'.control = .executing a t todo ∧
      Follows net chans P' s' m := by
  obtain ⟨aq, aq', huses, hperforms, hcalm⟩ := h.queues
  have hconfig := h.config
  rw [hc] at hperforms
  rw [NetState.settled_of_nil hs] at huses hconfig
  cases hperforms with
  | cons hfits hrest =>
    obtain ⟨hkept, q, hq, hwithin, hplaced⟩ := hfits
    have hk := huses k
    rw [Option.mem_def.mp hq] at hk
    have hk : Embodies (chans k).depthCount (s.chans k) q := hk
    obtain ⟨ch, hch, hembodies, hsame⟩ := hk.step (net.kind k) b hkept hwithin hplaced
    obtain ⟨s', hop, hsettled, heq⟩ := chanOp_of net { s with control := .executing a t todo } hch
    have hc' : s'.control = .executing a t todo := by rw [heq]
    simp only [Task.run, Option.mem_def.mp hq, Option.map_some] at hrest
    refine ⟨hk.guarded_iff.mpr hwithin, s', hop, hc', h.proceed hc hc' ?_ ?_
      ⟨_, aq', ?_, hrest, hP aq aq' q hq hwithin hplaced hcalm⟩ ?_⟩
    · rw [heq]
    · rw [heq]
    · rw [hsettled, ← (hconfig k).initialTokens]
      exact uses_update huses hembodies
    · rw [hsettled]
      exact config_update hconfig hsame

omit [DecidableEq Z] in
theorem Refines.op [Token D] {o : FifoOp D} {todo : List (Task A K Z D)} (h : Refines net chans s m) (hs : s.calls = [])
    (hc : s.control = .executing a t (.op k o :: todo)) : (s.chans k).Guarded o ∧
      ∃ s', net.chanOp b k o { s with control := .executing a t todo } = some s' ∧ Refines net chans s' m := by
  obtain ⟨hguarded, s', hop, hc', hfollows⟩ := h.toFollows.op (b := b) (fun _ aq' => AllCalm m.queue aq') hs hc
    fun _ _ _ _ _ _ hcalm => hcalm
  refine ⟨hguarded, s', hop, hfollows, ?_⟩
  rw [hc']
  rintro _ _ ⟨⟩

omit [DecidableEq Z] in
theorem Follows.copy [Token D] (P' : (K → Option (AbsQueue D)) → (K → Option (AbsQueue D)) → Prop) {k' : K} {n : Nat}
    {todo : List (Task A K Z D)} (h : Follows net chans P s m) (hs : s.calls = [])
    (hc : s.control = .executing a t (.copy k k' n :: todo)) (hP : ∀ aq aq' f, ∀ q ∈ aq k', P aq aq' →
        P' (Function.update aq k' (some { q with staged := f })) aq') :
    (n ≤ FifoEntry.numFree (s.chans k) ∧ n ≤ FifoEntry.numFree (s.chans k')) ∧
      ∃ head ch, copyTokens b n 0 n (s.chans k) (s.chans k') = some (head, ch) ∧ Follows net chans P' { s with
        chans := Function.update (Function.update s.chans k head) k' ch
        control := .executing a t todo } m := by
  obtain ⟨aq, aq', huses, hperforms, hcalm⟩ := h.queues
  have hconfig := h.config
  rw [hc] at hperforms
  rw [NetState.settled_of_nil hs] at huses hconfig
  cases hperforms with
  | cons hfits hrest =>
    obtain ⟨hne, q, hq, q', hq', hroom, hroom', hplaced⟩ := hfits
    have hk := huses k
    have hk' := huses k'
    rw [Option.mem_def.mp hq] at hk
    rw [Option.mem_def.mp hq'] at hk'
    have hk : Embodies (chans k).depthCount (s.chans k) q := hk
    have hk' : Embodies (chans k').depthCount (s.chans k') q' := hk'
    obtain ⟨ch, hcopy, hembodies, hsame⟩ := hk.copied (b := b) hk' hroom hroom' hplaced
    simp only [Task.run, Option.mem_def.mp hq, Option.mem_def.mp hq', Option.bind_some, Option.map_some] at hrest
    refine ⟨⟨?_, ?_⟩, s.chans k, ch, hcopy, h.proceed hc rfl rfl rfl ⟨_, aq', ?_, hrest, hP aq aq' _ q' hq' hcalm⟩ ?_⟩
    · rw [FifoEntry.numFree, hk.freeCount_eq]
      exact hroom
    · rw [FifoEntry.numFree, hk'.freeCount_eq]
      exact hroom'
    · simp only [NetState.settled, hs, List.foldl_nil, Function.update_eq_self]
      exact uses_update huses hembodies
    · simp only [NetState.settled, hs, List.foldl_nil, Function.update_eq_self]
      exact config_update hconfig hsame

omit [DecidableEq Z] in
theorem Refines.copy [Token D] {k' : K} {n : Nat} {todo : List (Task A K Z D)} (h : Refines net chans s m) (hs : s.calls = [])
    (hc : s.control = .executing a t (.copy k k' n :: todo)) :
    (n ≤ FifoEntry.numFree (s.chans k) ∧ n ≤ FifoEntry.numFree (s.chans k')) ∧
      ∃ head ch, copyTokens b n 0 n (s.chans k) (s.chans k') = some (head, ch) ∧ Refines net chans { s with
        chans := Function.update (Function.update s.chans k head) k' ch
        control := .executing a t todo } m := by
  obtain ⟨hfree, head, ch, hcopy, hfollows⟩ := h.toFollows.copy (b := b) (fun _ aq' => AllCalm m.queue aq') hs hc
    fun _ _ _ _ _ hcalm => hcalm
  exact ⟨hfree, head, ch, hcopy, hfollows, by rintro _ _ ⟨⟩⟩

omit [DecidableEq Z] in
theorem Follows.resetChan [Token D] (P' : (K → Option (AbsQueue D)) → (K → Option (AbsQueue D)) → Prop)
    (h : Follows net chans P s m) (hs : s.calls = []) (hc : s.control = .idle) (k : K)
    (hP : ∀ aq, P aq aq → P' (Function.update aq k (some (.initial (chans k).initialTokens)))
      (Function.update aq k (some (.initial (chans k).initialTokens)))) :
    ∃ s', net.chanOp b k .doReset s = some s' ∧ s'.control = .idle ∧
      Follows net chans P' s' { m with queue := Function.update m.queue k (some (chans k).initialTokens) } := by
  obtain ⟨aq, huses, hcalm⟩ := h.uses hs (by rw [hc]; rfl)
  have hconfig := h.config
  rw [NetState.settled_of_nil hs] at hconfig
  obtain ⟨ch, hch, hembodies, hsame⟩ := (huses k).reset (net.kind k) b
  obtain ⟨s', hop, hsettled, heq⟩ := chanOp_of net s hch
  have hc' : s'.control = .idle := by rw [heq, hc]
  refine ⟨s', hop, hc', ⟨_, _, ?_, by rw [hc']; exact .nil _, hP aq hcalm⟩, ?_, ?_, fun a _ => ?_, ?_⟩
  · rw [hsettled]
    rw [(hconfig k).initialTokens] at hembodies
    exact uses_update huses hembodies
  · rw [hsettled]
    exact config_update hconfig hsame
  · rw [hc']
    rintro _ _ _ ⟨⟩
  · rw [heq]
    exact h.state a (by rw [hc]; rintro _ _ ⟨⟩)
  · rw [heq]
    exact h.vars

theorem AllLoose.reset {l : K → Option (List D)} {c p : K → Nat} (h : AllLoose l c p (fun _ _ => none) aq) (k : K) (ts : List D) :
    AllLoose (Function.update l k (some ts)) (Function.update c k 0) (Function.update p k 0) (fun _ _ => none)
      (Function.update aq k (some (.initial ts))) := by
  have hinitial : (AbsQueue.initial ts).Loose ts 0 0 fun _ => none := ⟨List.append_nil _, rfl, rfl, rfl⟩
  have hnext := h.update (k := k) hinitial
  rw [Function.update_eq_self] at hnext
  exact hnext

omit [DecidableEq Z] in
theorem Refines.resetChan [Token D] (h : Refines net chans s m) (hs : s.calls = []) (hc : s.control = .idle) (k : K) :
    ∃ s', net.chanOp b k .doReset s = some s' ∧
      Refines net chans s' { m with queue := Function.update m.queue k (some (chans k).initialTokens) } := by
  obtain ⟨s', hop, hc', hfollows⟩ := h.toFollows.resetChan (b := b)
    (fun _ aq' => AllCalm (Function.update m.queue k (some (chans k).initialTokens)) aq') hs hc k fun aq hcalm => by
      have hnext := AllLoose.reset hcalm k (chans k).initialTokens
      rw [Function.update_eq_self] at hnext
      exact hnext
  refine ⟨s', hop, hfollows, ?_⟩
  rw [hc']
  rintro _ _ ⟨⟩

end Network

namespace Network

variable {A K Z Q T V D : Type} [DecidableEq A] [DecidableEq K] [DecidableEq Z] [DecidableEq Q] {net : Network A K Z Q T V D}
  {b : Build} {chans : K → FifoChan D Bool} {s s' : Simulation A K Z Q T V D} {m : Marking A K Q V D}
  {P P' : (K → Option (AbsQueue D)) → (K → Option (AbsQueue D)) → Prop} {a : A} {t : T}

/-! ## Steps of nodes -/

omit [DecidableEq Q] [DecidableEq Z] in
theorem Follows.setNode (h : Follows net chans P s.toNetState m) {n : NodeBase Q T (Finset (NetEvent K Z))}
    (hn : n.currentState = (s.nodes a).currentState) {signals : A → Finset (Finset (NetEvent K Z))} :
    Follows net chans P { s.toNetState with nodes := Function.update s.nodes a n, signals } m := by
  refine h.congr rfl rfl rfl fun a' => ?_
  by_cases ha : a' = a
  · subst ha
    simp only [Function.update_self]
    exact hn
  · simp only [Function.update_of_ne ha]

theorem resetNode_control : (net.resetNode b a s).control = s.control := by
  simp only [Network.resetNode, Simulation.notifyActivation_toNetState, Simulation.setNode_toNetState, logSearch_toNetState]

theorem Follows.resetNode (h : Follows net chans P s.toNetState m) (hi : ∀ a, (s.nodes a).Idle (net.fsm a))
    (hc : s.control = .idle) (a : A) : Follows net chans P (net.resetNode b a s).toNetState { m with
      state := Function.update m.state a (some (net.initialState a))
      vars := Function.update m.vars a (net.reset a (m.vars a)) } := by
  obtain ⟨n, sent, hn, heq⟩ := resetNode_cases (b := b) (hi a)
  rw [heq]
  simp only [Simulation.notifyActivation_toNetState, Simulation.setNode_toNetState, logSearch_toNetState]
  refine ⟨h.queues, h.config, ?_, fun a' _ => ?_, ?_⟩
  · simp only [hc]
    rintro _ _ _ ⟨⟩
  · by_cases ha : a' = a
    · subst ha
      simp only [Function.update_self]
      exact hn.currentState.symm
    · simp only [Function.update_of_ne ha]
      exact h.state a' (by rw [hc]; rintro _ _ ⟨⟩)
  · simp only [h.vars]

omit [DecidableEq Q] in
theorem Follows.act {todo : List (Task A K Z D)} (h : Follows net chans P s.toNetState m) (hs : s.calls = [])
    (hc : s.control = .acting a t) (htokens : s.tokens b (net.rule a t) = heads m (net.rule a t))
    (htodo : ∀ aq, (∀ k, (s.chans k).Uses (chans k).depthCount (aq k)) → P aq aq → ∃ aq',
      Performs (fun k => (chans k).depthCount) (fun k => (chans k).initialTokens) todo aq aq' ∧ P' aq aq') :
    Follows net chans P' { s.toNetState with
      vars := Function.update s.vars a (net.action a t (s.vars a) (s.tokens b (net.rule a t))).1
      control := .executing a t todo } (net.fire m a t) := by
  have hnot : s.control.isExecuting = false := by rw [hc]; rfl
  obtain ⟨aq, huses, hP⟩ := h.uses hs (Control.todo_eq hnot)
  obtain ⟨aq', hperforms, hP'⟩ := htodo aq huses hP
  refine ⟨⟨aq, aq', ?_, hperforms, hP'⟩, h.config, ?_, fun a' hne => ?_, ?_⟩
  · rw [← NetState.settled_of_nil hs] at huses
    exact huses
  · rintro _ _ _ ⟨⟩
    exact Function.update_self _ _ _
  · have ha : a' ≠ a := by
      rintro rfl
      exact hne _ _ rfl
    simp only [fire, Function.update_of_ne ha]
    exact h.state a' fun t todo => Control.ne_executing hnot
  · simp only [fire, htokens, h.vars]

omit [DecidableEq Q] in
theorem Refines.act (h : Refines net chans s.toNetState m) (hreg : net.Regular) (hs : s.calls = [])
    (hc : s.control = .acting a t) : Refines net chans (net.act b a t s).toNetState (net.fire m a t) where
  toFollows := by
    have hready := ready_of_choice (h.chosen a t hc)
    obtain ⟨aq, huses, hcalm⟩ := h.uses hs (by rw [hc]; rfl)
    have htokens : s.tokens b (net.rule a t) = heads m (net.rule a t) := by
      rw [← hcalm.seen] at hready ⊢
      exact tokens_eq huses hready
    refine h.toFollows.act hs hc htokens fun aq _ hcalm => ?_
    obtain ⟨c, p, aq', htasks, hloose, hsame⟩ := performs_tasks false (fun k => (chans k).initialTokens) hreg hready.served hcalm
    obtain ⟨rfl, rfl⟩ := hsame rfl
    rw [RuntimeFiringRule.tasksOf_false, ← htokens, h.vars] at htasks
    exact ⟨aq', htasks, hloose⟩
  chosen := by rintro _ _ ⟨⟩

theorem Follows.finish (h : Follows net chans P s.toNetState m) (hi : ∀ a, (s.nodes a).Idle (net.fsm a))
    (hc : s.control = .executing a t []) : Follows net chans P (net.finish b a t s).toNetState m := by
  have hn := (hi a).scheduleReturn (net.check b s.toNetState a) t
  have hqueues := h.queues
  rw [hc] at hqueues
  refine ⟨?_, ?_, ?_, fun a' _ => ?_, ?_⟩
  all_goals simp only [Network.finish, Simulation.setNode_toNetState, logSearch_toNetState]
  · exact hqueues
  · exact h.config
  · rintro _ _ _ ⟨⟩
  · by_cases ha : a' = a
    · subst ha
      rw [Function.update_self, h.executes a' t [] hc]
      exact hn.currentState.symm
    · rw [Function.update_of_ne ha]
      refine h.state a' fun t' todo' heq => ha ?_
      rw [hc] at heq
      cases heq
      rfl
  · exact h.vars

omit [DecidableEq Q] in
theorem Follows.polled (h : Follows net chans P s.toNetState m) (hc : s.control.isExecuting = false)
    (hp : Polled net b a s s') : Follows net chans P s'.toNetState m := by
  -- `canFire` changes what is cached at most
  have hcurrent : ∀ {n : NodeBase Q T (Finset (NetEvent K Z))} {e : Bool},
      n = ((s.nodes a).canFire (net.fsm a) (net.check b s.toNetState a)).1 → ∀ a',
        (Function.update s.nodes a { n with executing := e } a').currentState = (s.nodes a').currentState := by
    intro n e hn a'
    by_cases ha : a' = a
    · subst ha
      rw [Function.update_self]
      rcases canFire_cases hn with rfl | ⟨_, rfl⟩
      · rfl
      · rfl
    · rw [Function.update_of_ne ha]
  cases hp with
  | inactive => exact h.setControl _ hc rfl
  | @done n ha hn hct =>
    refine (h.setControl .idle hc rfl).congr ?_ ?_ ?_ ?_
    · simp only [Simulation.setNode_toNetState, logPoll_toNetState, NetState.settled]
    · rfl
    · simp only [Simulation.setNode_toNetState, logPoll_toNetState]
    · simp only [Simulation.setNode_toNetState, logPoll_toNetState]
      exact hcurrent (e := n.executing) hn
  | @fire n t ha hn hct =>
    refine (h.setControl (.acting a t) hc rfl).congr ?_ ?_ ?_ ?_
    · simp only [Simulation.setNode_toNetState, logFire_toNetState, NetState.settled]
    · rfl
    · simp only [Simulation.setNode_toNetState, logFire_toNetState]
    · simp only [Simulation.setNode_toNetState, logFire_toNetState]
      exact hcurrent hn

omit [DecidableEq A] [DecidableEq Q] in
theorem Inv.canFire_eq (hinv : Inv net b s.toNetState) (hnone : (s.nodes a).currentState = none → (s.nodes a).ct = none)
    (hs : s.Settled) (hc : ¬ s.control.Executes a) (ha : (s.nodes a).active = true) :
    ((s.nodes a).canFire (net.fsm a) (net.check b s.toNetState a)).1.ct =
      (s.nodes a).currentState.bind fun q => (net.transitions a q).find? (net.check b s.toNetState a) := by
  have hexec : (s.nodes a).executing = false := by
    rw [← Bool.not_eq_true, hinv.executing a]
    exact hc
  cases huse : (s.nodes a).useActivationCallback with
  | true =>
    simp only [NodeBase.canFire, ha, huse, if_true, Bool.not_true, Bool.false_eq_true, if_false]
    have hd : (s.nodes a).callbackDriven = true := by rw [NodeBase.callbackDriven, ha, huse]; rfl
    cases hq : (s.nodes a).currentState with
    | none => exact hnone hq
    | some q => exact hinv.ct_eq hs hexec hd hq
  | false =>
    simp only [NodeBase.canFire, ha, huse, if_true, Bool.not_false]
    exact NodeBase.searchActiveTransition_ct

omit [DecidableEq Q] in
theorem Refines.poll (h : Refines net chans s.toNetState m) (hinv : Inv net b s.toNetState) (htold : Told s)
    (hreg : net.Regular) (hreq : net.Requested chans) (hs : s.Settled) (hc : s.control = .polling a)
    (hp : Polled net b a s s') : Refines net chans s'.toNetState m where
  toFollows := h.toFollows.polled (by rw [hc]; rfl) hp
  chosen := by
    cases hp with
    | inactive | done => rintro _ _ ⟨⟩
    | fire ha hn hct =>
      rintro _ _ ⟨⟩
      rw [← h.find_eq (b := b) hreq hreg hs.1 (by rw [hc]; rfl),
        ← hinv.canFire_eq (htold.actor a).none hs (by rw [hc]; exact id) ha, ← hn, hct]

def emits (s : NetState A K Z Q T V D) : Label A K Z → List (Move A K T)
  | .reset (.inl (.inl k)) => [.resetChan k]
  | .reset (.inr a) => [.resetNode a]
  | .step =>
    match s.control with
    | .acting a t => [.fire a t]
    | _ => []
  | _ => []

variable [Token D] [Fintype A]

theorem Follows.tells {l : Label A K Z} (h : Follows net chans P s.toNetState m) (hi : ∀ a, (s.nodes a).Idle (net.fsm a))
    (hl : l.Tells) (hs : net.step b s l = some s') : Follows net chans P s'.toNetState m ∧ s'.control = s.control := by
  cases l with
  | deliver a e =>
    obtain ⟨_, hs⟩ := Option.ite_none_right_eq_some.mp hs
    obtain ⟨n, sent, hn, rfl⟩ := deliver_cases (hi a) hs
    simp only [Simulation.notifyActivation_toNetState, Simulation.setNode_toNetState, logSearch_toNetState]
    refine ⟨h.setNode ?_, trivial⟩
    cases hn with
    | executing | activated | deactivated | ignored => rfl
  | call =>
    obtain ⟨_, hs⟩ := Option.ite_none_right_eq_some.mp hs
    unfold nextCall at hs
    split at hs
    · cases hs
    · rename_i c calls hcalls
      cases hs
      refine ⟨h.congr ?_ rfl rfl fun _ => rfl, rfl⟩
      simp only [NetState.settled, hcalls, List.foldl_cons]
      rfl
  | setActive a flag =>
    obtain ⟨_, hs⟩ := Option.ite_none_right_eq_some.mp hs
    obtain ⟨n, sent, hn, rfl⟩ := setActive_cases (hi a) hs
    simp only [Simulation.notifyActivation_toNetState, Simulation.setNode_toNetState, logSearch_toNetState]
    exact ⟨h.setNode hn.currentState, trivial⟩
  | setUseActivationCallback a flag =>
    obtain ⟨_, hs⟩ := Option.ite_none_right_eq_some.mp hs
    obtain ⟨n, sent, hn, heq⟩ := setUseActivationCallback_cases (b := b) flag (hi a)
    cases hs
    simp only [heq, Simulation.notifyActivation_toNetState, Simulation.setNode_toNetState, logSearch_toNetState]
    exact ⟨h.setNode hn.currentState, trivial⟩
  | reset | run | step => exact hl.elim

theorem Refines.tells {l : Label A K Z} (h : Refines net chans s.toNetState m) (hi : ∀ a, (s.nodes a).Idle (net.fsm a))
    (hl : l.Tells) (hs : net.step b s l = some s') : Refines net chans s'.toNetState m := by
  obtain ⟨hfollows, hc⟩ := h.toFollows.tells hi hl hs
  refine ⟨hfollows, ?_⟩
  rw [hc]
  exact h.chosen

variable [DecidableEq T]

/-- Every step is a move of the dataflow net, or none. -/
theorem Refines.step {l : Label A K Z} (h : Refines net chans s.toNetState m) (hinv : Inv net b s.toNetState) (htold : Told s)
    (hreg : net.Regular) (hreq : net.Requested chans) (hs : net.step b s l = some s') :
    ∃ m', Persistent.exec (net.move (fun k => (chans k).depthCount) fun k => (chans k).initialTokens) (emits s.toNetState l) m =
      some m' ∧ Refines net chans s'.toNetState m' := by
  cases l with
  | deliver | call | setActive | setUseActivationCallback =>
    refine ⟨m, rfl, h.tells hinv.idle ?_ hs⟩
    exact trivial
  | reset r =>
    obtain ⟨⟨hset, hidle⟩, hs⟩ := Option.ite_none_right_eq_some.mp hs
    have hc := Control.eq_idle hidle
    rcases r with (k | z) | a
    · obtain ⟨s₁, hop, hrefines⟩ := h.resetChan (b := b) hset.1 hc k
      obtain ⟨s₂, hop', heq⟩ := Option.bind_eq_some_iff.mp hs
      rw [hop, Option.some.injEq] at hop'
      cases heq
      exact ⟨_, rfl, hop' ▸ hrefines⟩
    · cases hs
      refine ⟨m, rfl, h.congr ?_ rfl rfl fun _ => rfl⟩
      rw [NetState.settled_of_nil hset.1]
      rfl
    · cases hs
      refine ⟨_, rfl, h.toFollows.resetNode hinv.idle hc a, ?_⟩
      rw [resetNode_control, hc]
      rintro _ _ ⟨⟩
  | run a =>
    obtain ⟨⟨hset, hidle, _⟩, hs⟩ := Option.ite_none_right_eq_some.mp hs
    cases hs
    refine ⟨m, rfl, h.setControl _ ?_ rfl (by rintro _ _ ⟨⟩)⟩
    rw [Control.eq_idle hidle]
    rfl
  | step =>
    obtain ⟨hset, hs⟩ := Option.ite_none_right_eq_some.mp hs
    unfold Network.proceed at hs
    split at hs
    · cases hs
    · rename_i hc
      refine ⟨m, ?_, h.poll hinv htold hreg hreq hset hc (poll_cases hs)⟩
      rw [emits, hc]
      rfl
    · rename_i a t hc
      cases hs
      refine ⟨net.fire m a t, ?_, h.act hreg hset.1 hc⟩
      rw [emits, hc]
      exact Persistent.exec_cons_of (firing_eq_some.mpr ⟨h.chosen a t hc, rfl⟩)
    · rename_i hc
      cases hs
      refine ⟨m, ?_, h.toFollows.finish hinv.idle hc, by rintro _ _ ⟨⟩⟩
      rw [emits, hc]
      rfl
    · rename_i a t task todo hc
      refine ⟨m, by rw [emits, hc]; rfl, ?_⟩
      cases task with
      | op k o =>
        obtain ⟨_, s₁, hop, hrefines⟩ := h.op (b := b) hset.1 hc
        obtain ⟨s₂, hop', heq⟩ := Option.bind_eq_some_iff.mp hs
        rw [hop, Option.some.injEq] at hop'
        cases heq
        exact hop' ▸ hrefines
      | copy k k' n =>
        obtain ⟨_, head, ch, hcopy, hrefines⟩ := h.copy (b := b) hset.1 hc
        obtain ⟨⟨head', ch'⟩, hcopy', heq⟩ := Option.bind_eq_some_iff.mp hs
        rw [hcopy, Option.some.injEq] at hcopy'
        cases hcopy'
        cases heq
        exact hrefines
      | produce | reset =>
        obtain ⟨_, _, _, hperforms, _⟩ := h.queues
        rw [hc] at hperforms
        cases hperforms with
        | cons hfits => exact hfits.elim

omit [DecidableEq T] in
theorem Refines.withinCounts {l : Label A K Z} (h : Refines net chans s.toNetState m) (hs : net.step b s l = some s') :
    WithinCounts s.toNetState l := by
  cases l with
  | step =>
    obtain ⟨hset, _⟩ := Option.ite_none_right_eq_some.mp hs
    unfold WithinCounts
    split
    · split
      · rename_i hc
        exact (h.op (b := b) hset.1 hc).1
      · rename_i hc
        exact (h.copy (b := b) hset.1 hc).1
      · trivial
    · trivial
  | _ => trivial

/-! ## Runs -/

inductive Run (net : Network A K Z Q T V D) (b : Build) (s₀ : Simulation A K Z Q T V D) :
    List (Move A K T) → Simulation A K Z Q T V D → Prop where
  | start : Run net b s₀ [] s₀
  | step {w s l s'} (hr : Run net b s₀ w s) (hs : net.step b s l = some s') : Run net b s₀ (w ++ emits s.toNetState l) s'

omit [DecidableEq T] in
theorem exists_run {s₀ : Simulation A K Z Q T V D} (hr : Relation.ReflTransGen (net.StepOf b fun _ _ => True) s₀ s) :
    ∃ w, Run net b s₀ w s := by
  induction hr with
  | refl => exact ⟨[], .start⟩
  | tail _ hstep ih =>
    obtain ⟨w, hw⟩ := ih
    obtain ⟨l, _, hs⟩ := hstep
    exact ⟨_, hw.step hs⟩

/-- What holds in every state of a run of regular rules. -/
theorem Run.refines {vars : A → V} {w : List (Move A K T)} (hreg : net.Regular) (hbuilt : net.Elaborated b chans)
    (hr : Run net b (Network.start chans vars) w s) : Inv net b s.toNetState ∧ Told s ∧
      ∃ m, Persistent.exec (net.move (fun k => (chans k).depthCount) fun k => (chans k).initialTokens) w (.start vars) = some m ∧
        Refines net chans s.toNetState m := by
  induction hr with
  | start => exact ⟨inv_start hbuilt, told_start, _, rfl, refines_start hbuilt⟩
  | step _ hs ih =>
    obtain ⟨hinv, htold, m, hm, h⟩ := ih
    obtain ⟨m', hm', h'⟩ := h.step hinv htold hreg hbuilt.requested hs
    refine ⟨hinv.step (h.withinCounts hs) hs, htold.step hinv.idle (step_cases hinv.idle hs), m', ?_, h'⟩
    rw [Persistent.exec_append, hm]
    exact hm'

/-- What a marking says of a simulation between firings. -/
structure Shows (s : NetState A K Z Q T V D) (m : Marking A K Q V D) : Prop where
  contents : ∀ k, (s.chans k).contents = ((m.queue k).getD []).map some
  available : ∀ k, FifoOutlet.numAvailable (s.chans k) = ((m.queue k).getD []).length
  state : ∀ a, (s.nodes a).currentState = m.state a
  vars : s.vars = m.vars

omit [DecidableEq A] [DecidableEq Z] [DecidableEq Q] [Token D] [Fintype A] [DecidableEq T] in
theorem Refines.shows {s : NetState A K Z Q T V D} (h : Refines net chans s m) (hs : s.calls = [])
    (hc : s.control.isExecuting = false) : Shows s m := by
  obtain ⟨aq, huses, hcalm⟩ := h.uses hs (Control.todo_eq hc)
  have hchan : ∀ k, (s.chans k).contents = ((m.queue k).getD []).map some ∧
      FifoOutlet.numAvailable (s.chans k) = ((m.queue k).getD []).length := by
    intro k
    have hk := hcalm k
    have huse := huses k
    generalize m.queue k = q at hk
    generalize aq k = q' at hk huse
    cases hk with
    | none =>
      have hareas := FifoChan.Unused.areas huse
      exact ⟨contents_eq hareas rfl (by rintro i ⟨⟩), hareas.visibleCount_eq⟩
    | @some l a hk =>
      have huse : Embodies (chans k).depthCount (s.chans k) a := huse
      have hserves := huse.serves
      rw [hk.visible_eq, List.length_eq_zero_iff.mp hk.consumed, List.length_eq_zero_iff.mp hk.pipeline] at hserves
      have hareas := hserves.counted.areas
      refine ⟨contents_eq hareas (by simp) fun i hi => ?_, hareas.visibleCount_eq⟩
      have hi' : i < l.length := by simpa using hi
      have hheld := hserves.held i (by simpa using hi)
      simpa [List.getElem?_eq_getElem hi'] using hheld
  exact ⟨fun k => (hchan k).1, fun k => (hchan k).2, fun a => (h.state a fun t todo => Control.ne_executing hc).symm, h.vars.symm⟩

omit [DecidableEq A] [DecidableEq Z] [DecidableEq Q] [Token D] [Fintype A] [DecidableEq T] in
/-- Every place holds a token that can be read, or can be written to. -/
theorem Refines.full {s : NetState A K Z Q T V D} (h : Refines net chans s m) (hs : s.calls = [])
    (hc : s.control.isExecuting = false) (k : K) :
    FifoOutlet.numAvailable (s.chans k) + FifoEntry.numFree (s.chans k) = (chans k).depthCount := by
  obtain ⟨aq, huses, hcalm⟩ := h.uses hs (Control.todo_eq hc)
  have hsized : ∀ {v}, Areas (s.chans k).toQueueFRVWPtr 0 v 0 → (s.chans k).fsize = (chans k).depthCount + 1 →
      FifoOutlet.numAvailable (s.chans k) + FifoEntry.numFree (s.chans k) = (chans k).depthCount := by
    intro v hareas hsize
    have hfits := hareas.fits
    rw [FifoOutlet.numAvailable, FifoEntry.numFree, hareas.visibleCount_eq, hareas.freeCount_eq]
    omega
  have hk := hcalm k
  have huse := huses k
  generalize m.queue k = q at hk
  generalize aq k = q' at hk huse
  cases hk with
  | none => exact hsized (FifoChan.Unused.areas huse) (FifoChan.Unused.fsize_eq huse)
  | @some l a hk =>
    have huse : Embodies (chans k).depthCount (s.chans k) a := huse
    have hcounted := huse.serves.counted
    rw [hk.consumed, hk.pipeline] at hcounted
    exact hsized hcounted.areas hcounted.fsize_eq

end Network

/-! ### A writer and a reader -/

def feeding : Network Bool Unit Empty Nat Nat Nat Nat where
  kind _ := .fifo
  initialState _ := 0
  transitions a q := if a then [0] else if q < 2 then [q] else []
  destState a t := if a then 0 else t + 1
  rule a _ :=
    let guard := if a then .input () 1 1 else .output [.inl ()] 1 1
    ⟨guard, guard.inputs, guard.outputs, []⟩
  events_nil _ _ := rfl
  action a t v tokens := if a then (v + (tokens.flatten.head?.join).getD 0, []) else (v, [(0, 0, t + 5)])
  reset _ _ := 0
  chans := Empty.elim
  nodes := Empty.elim
  reader _ := true
  reader_eq a t info h _ := by
    cases a with
    | true => rfl
    | false => simp [Guard.inputs] at h

namespace feeding

def chan (n : Nat) (l : List Nat) : Option (FifoChan Nat Bool) :=
  [.data 1, .space 1].foldlM (ChanKind.fifo.request .checked) (.new n l)

theorem elaborated {n : Nat} {l : List Nat} {ch : FifoChan Nat Bool} (hl : l.length ≤ n) (h : chan n l = some ch) :
    feeding.Elaborated .checked fun _ => ch := by
  refine fun _ => ⟨n, l, _, hl, h, fun a t => ?_⟩
  cases a with
  | true | false => simp [feeding, Guard.inputs, Guard.outputs]

theorem chan_sized {n : Nat} {l : List Nat} {ch : FifoChan Nat Bool} (hl : l.length ≤ n) (h : chan n l = some ch) :
    ch.depthCount = n ∧ ch.initialTokens = l := by
  obtain ⟨hunused, hinit, _⟩ := FifoChan.unused_requests hl h
  exact ⟨by rw [QueueRWPtr.depthCount, hunused.fsize_eq, Nat.add_sub_cancel], hinit⟩

theorem regular : feeding.Regular where
  isLeft a t := by cases a <;> simp [feeding, Guard.outputs]
  nodup a t := by cases a <;> simp [feeding, Guard.outputs]
  consumed_le a t k := by
    cases a with
    | true => exact .inr ⟨⟨(), 1, 1⟩, List.mem_singleton.mpr rfl, rfl, Nat.le_refl 1⟩
    | false => exact .inl rfl
  produced_le a t := by cases a <;> simp [feeding, Guard.outputs]
  complete a t v tokens := by
    cases a with
    | true => exact ⟨by simp [feeding], by simp [feeding, Guard.outputs]⟩
    | false =>
      refine ⟨by simp [feeding, Guard.outputs], fun j info hj i hi => ?_⟩
      cases j with
      | zero =>
        cases hj
        obtain rfl : i = 0 := Nat.lt_one_iff.mp hi
        exact ⟨t + 5, List.mem_singleton.mpr rfl⟩
      | succ j => cases hj

def simulation (actors : List Bool) (resets : List ((Unit ⊕ Empty) ⊕ Bool)) (ch : FifoChan Nat Bool) :
    Option (Simulation Bool Unit Empty Nat Nat Nat Nat) :=
  feeding.simulate .checked (fun _ _ => True) actors 80 resets (Network.start (fun _ => ch) fun _ => 0)

end feeding

namespace Network

variable {A K Z Q T V D : Type} [DecidableEq A] [DecidableEq K] [DecidableEq Z] [DecidableEq Q] [DecidableEq T] [Token D]
  [Fintype A]

/-- A run is one of the dataflow net, whose actors fire at once what they find first; between firings
the channels, states and variables are those of the net, and so are the transitions that are enabled. -/
theorem run_refines (net : Network A K Z Q T V D) (b : Build) {chans : K → FifoChan D Bool} {vars : A → V}
    {w : List (Move A K T)} {s : Simulation A K Z Q T V D} (hreg : net.Regular) (hbuilt : net.Elaborated b chans)
    (hr : Run net b (start chans vars) w s) :
    ∃ m, Persistent.exec (net.move (fun k => (chans k).depthCount) fun k => (chans k).initialTokens) w (.start vars) = some m ∧
      (s.calls = [] → s.control.isExecuting = false →
        Shows s.toNetState m ∧ ∀ a t, net.check b s.toNetState a t = net.enabled (fun k => (chans k).depthCount) m a t) := by
  obtain ⟨_, _, m, hm, h⟩ := hr.refines hreg hbuilt
  exact ⟨m, hm, fun hs hc => ⟨h.shows hs hc, fun a t => h.check_eq hbuilt.requested hreg hs (Control.todo_eq hc)⟩⟩

theorem run_refines_feeding : ∃ (chans : Unit → FifoChan Nat Bool) (s : Simulation Bool Unit Empty Nat Nat Nat Nat)
    (w : List (Move Bool Unit Nat)) (m : Marking Bool Unit Nat Nat Nat), s.vars true = 11 ∧
      Persistent.exec (feeding.move (fun k => (chans k).depthCount) fun k => (chans k).initialTokens) w (.start fun _ => 0) =
        some m ∧ Shows s.toNetState m := by
  have hrun : ((feeding.chan 1 []).any fun ch =>
      (feeding.simulation [false, true] [.inl (.inl ()), .inr false, .inr true] ch).any fun s =>
        s.control.isIdle && decide (s.vars true = 11 ∧ s.Settled)) = true := by
    decide +kernel
  obtain ⟨ch, hch, hrun⟩ := (Option.any_eq_true _ _).mp hrun
  obtain ⟨s, hs, hrun⟩ := (Option.any_eq_true _ _).mp hrun
  rw [Bool.and_eq_true, decide_eq_true_eq] at hrun
  obtain ⟨hidle, hsum, hset⟩ := hrun
  obtain ⟨w, hw⟩ := exists_run (simulate_reaches hs)
  obtain ⟨m, hm, h⟩ := run_refines feeding .checked feeding.regular (feeding.elaborated (by decide) hch) hw
  exact ⟨_, s, w, m, hsum, hm, (h hset.1 (by rw [Control.eq_idle hidle]; rfl)).1⟩

end Network

end SysteMoC
