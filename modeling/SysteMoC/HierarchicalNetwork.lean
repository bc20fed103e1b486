import SysteMoC.Assoc
import SysteMoC.Flatten
import SysteMoC.NetworkDataflow

/-!
# Networks of hierarchical machines

The elaboration replaces the states of an actor by a table of product states. A network
runs on the tables as the hierarchical machines do.
-/

namespace SysteMoC

open StateTree (IsConfig)
open FiringFSM (IsInitial Flattened Steps WellFormed)

structure HierarchicalFSM (b : Build) (R : Type) where
  n : Nat
  states : Fin n → StateTree
  hsinit : Fin n
  etl : List (ExpandedTransition R)
  fuel : Nat
  table : List (ProdState × List (R × ProdState))
  elaborated : FiringFSM.beforeEndOfElaboration b states (some hsinit) etl fuel = some (.ok table)
  child : ∀ p u, (FiringFSM.top states hsinit).sub p = some u → u.numChildren = 0 → u = .firing
  decides : (FiringFSM.top states hsinit).DecidesAncestors
  wellFormed : ∀ tr ∈ etl, WellFormed (FiringFSM.top states hsinit) tr

namespace HierarchicalFSM

variable {b : Build} {R : Type}

def top (f : HierarchicalFSM b R) : StateTree := FiringFSM.top f.states f.hsinit

/-- Of the transitions that are active, the first one whose rule passes is taken. -/
def Takes (f : HierarchicalFSM b R) (pass : R → Bool) (q : ProdState) (t : R × ProdState) : Prop :=
  ∃ tr, (f.etl.filter fun tr => tr.Active q).find? (fun tr => pass tr.rule) = some tr ∧ tr.rule = t.1 ∧ tr.Step f.top q t.2

/-- The product states a machine is in at times. -/
def Reaches (f : HierarchicalFSM b R) (q : ProdState) : Prop :=
  IsConfig f.top q ∧ ∃ q₀, IsInitial f.top q₀ ∧ Relation.ReflTransGen (Steps f.top f.etl) q₀ q

/-! ## The table -/

theorem flattened (f : HierarchicalFSM b R) : ∃ q₀, IsInitial f.top q₀ ∧ Flattened f.top f.etl q₀ f.table := by
  have ht : f.top ≠ .firing := by
    rw [top, FiringFSM.top]
    exact fun h => by cases h
  have helaborated := f.elaborated
  have hfinal := StateTree.finalise_eq (b := b) (t := f.top) (p := []) rfl
  rw [show f.top.bits [] = 1 from rfl] at hfinal
  simp only [FiringFSM.beforeEndOfElaboration] at helaborated
  rcases hfinal with ⟨hok, hinit⟩ | ⟨e, he, _⟩
  · have hc : f.top.Complete := ⟨f.child, fun p m init c hp => hinit p m init c List.nil_suffix hp⟩
    obtain ⟨q₀, hq₀, hmem, hconfig⟩ := FiringFSM.exists_initial hc
    rw [top] at hok hq₀
    simp only [hok, bind, Except.bind, hq₀] at helaborated
    -- with more fuel the table is the same
    have hrun := Worklist.loop_mono (Nat.le_max_left f.fuel (2 ^ (f.top.states []).card)) helaborated
    rcases FiringFSM.run_flattened (b := b) f.decides ht hc f.wellFormed hconfig
      (Nat.le_max_right f.fuel (2 ^ (f.top.states []).card)) with ⟨table, htable, hflat⟩ | ⟨_, _, herror, _⟩
    · cases htable.symm.trans hrun
      exact ⟨q₀, hmem, hflat⟩
    · cases herror.symm.trans hrun
  · rw [top] at he
    simp only [he, bind, Except.bind] at helaborated
    cases helaborated

theorem isInitial_unique {t : StateTree} {q q' : ProdState} (h : IsInitial t q) (h' : IsInitial t q') : q = q' := by
  ext l
  rw [h l, h' l]

def initial (f : HierarchicalFSM b R) : ProdState := (f.table.map Prod.fst).head?.getD ∅

def row (f : HierarchicalFSM b R) (q : ProdState) : List (R × ProdState) := (f.table.lookup q).getD []

variable {f : HierarchicalFSM b R} {q : ProdState} {t : R × ProdState} {pass : R → Bool}

theorem isInitial_initial : IsInitial f.top f.initial := by
  obtain ⟨q₀, hinit, hflat⟩ := f.flattened
  rw [initial, hflat.initial]
  exact hinit

theorem reaches_iff : f.Reaches q ↔ q ∈ f.table.map Prod.fst := by
  obtain ⟨q₀, hinit, hflat⟩ := f.flattened
  rw [hflat.reachable]
  constructor
  · rintro ⟨_, q₁, hinit', hr⟩
    rwa [isInitial_unique hinit hinit']
  · intro hr
    obtain ⟨e, he, rfl⟩ := List.mem_map.mp ((hflat.reachable q).mpr hr)
    exact ⟨hflat.config e he, q₀, hinit, hr⟩

theorem reaches_initial : f.Reaches f.initial := by
  obtain ⟨q₀, hinit, hflat⟩ := f.flattened
  have hq₀ : f.initial = q₀ := by
    rw [initial, hflat.initial]
    rfl
  rw [reaches_iff, hflat.reachable, hq₀]

theorem find?_forall₂ {α β : Type} {P : α → β → Prop} {p : α → Bool} {f : β → Bool} {l : List α} {l' : List β}
    (h : List.Forall₂ P l l') (hp : ∀ a b, P a b → p a = f b) : Option.Rel P (l.find? p) (l'.find? f) := by
  induction h with
  | nil => exact .none
  | @cons a b l l' hab _ ih =>
    rw [List.find?_cons, List.find?_cons, hp a b hab]
    cases f b with
    | false => exact ih
    | true => exact .some hab

theorem find_row (pass : R → Bool) (h : f.Reaches q) : (f.row q).find? (fun t => pass t.1) = some t ↔ f.Takes pass q t := by
  obtain ⟨q₀, _, hflat⟩ := f.flattened
  obtain ⟨e, he, rfl⟩ := List.mem_map.mp (reaches_iff.mp h)
  have hrow : f.row e.1 = e.2 := by
    rw [row, Assoc.lookup_of_mem hflat.nodup he]
    rfl
  have hrel := find?_forall₂ (p := fun tr => pass tr.rule) (f := fun t => pass t.1) (hflat.transitions e he)
    fun tr t h => by rw [h.1]
  rw [hrow, Takes]
  generalize hfound : e.2.find? (fun t => pass t.1) = found at hrel ⊢
  generalize (f.etl.filter fun tr => tr.Active e.1).find? (fun tr => pass tr.rule) = found' at hrel ⊢
  cases hrel with
  | none => simp
  | @some tr t' htr =>
    constructor
    · rintro ⟨⟩
      exact ⟨tr, rfl, htr.1.symm, htr.2⟩
    · rintro ⟨_, ⟨⟩, hrule, hstep⟩
      rw [Option.some.injEq]
      exact Prod.ext (htr.1.trans hrule) (FiringFSM.Step.unique htr.2 hstep)

theorem Reaches.step (h : f.Reaches q) (ht : f.Takes pass q t) : f.Reaches t.2 := by
  obtain ⟨q₀, _, hflat⟩ := f.flattened
  obtain ⟨tr, hfind, _, hstep⟩ := ht
  rw [reaches_iff, hflat.reachable] at h ⊢
  exact h.tail ⟨tr, List.mem_of_mem_filter (List.mem_of_find?_eq_some hfind), hstep⟩

end HierarchicalFSM

/-! ## Networks -/

structure HierarchicalNetwork (b : Build) (A K Z R V D : Type) where
  kind : K → ChanKind
  fsm : A → HierarchicalFSM b R
  rule : A → R → RuntimeFiringRule K (List (K ⊕ Z)) (V × List (List (Option D)))
  events_nil : ∀ a r, (rule a r).events = []
  action : A → R → V → List (List (Option D)) → V × List (Nat × Nat × D)
  reset : A → V → V
  chans : Z → List (K ⊕ Z)
  nodes : Z → List (ResetNode A K Z)
  reader : K → A
  reader_eq : ∀ a r, ∀ info ∈ (rule a r).portInInfos, kind info.port = .fifo → a = reader info.port

namespace HierarchicalNetwork

variable {b : Build} {A K Z R V D : Type}

/-- A runtime transition has a rule and a product state it leads to. -/
def flatten (net : HierarchicalNetwork b A K Z R V D) : Network A K Z ProdState (R × ProdState) V D where
  kind := net.kind
  initialState a := (net.fsm a).initial
  transitions a := (net.fsm a).row
  destState _ t := t.2
  rule a t := net.rule a t.1
  events_nil a t := net.events_nil a t.1
  action a t := net.action a t.1
  reset := net.reset
  chans := net.chans
  nodes := net.nodes
  reader := net.reader
  reader_eq a t := net.reader_eq a t.1

variable [DecidableEq A] [DecidableEq K] [DecidableEq Z] [DecidableEq R]

def passes (net : HierarchicalNetwork b A K Z R V D) (depth : K → Nat) (m : Marking A K ProdState V D) (a : A) (r : R) : Bool :=
  decide (Network.Ready depth m (net.rule a r)) && (net.rule a r).guard.value (m.vars a, Network.heads m (net.rule a r))

def fire (net : HierarchicalNetwork b A K Z R V D) (m : Marking A K ProdState V D) (a : A) (t : R × ProdState) :
    Marking A K ProdState V D where
  queue k := (m.queue k).map fun l => l.drop ((net.rule a t.1).consumption k) ++
    (net.rule a t.1).output (net.action a t.1 (m.vars a) (Network.heads m (net.rule a t.1))).2 k
  state := Function.update m.state a (some t.2)
  vars := Function.update m.vars a (net.action a t.1 (m.vars a) (Network.heads m (net.rule a t.1))).1

/-- The runs of the hierarchical machines on their channels. -/
inductive HierarchicalRun (net : HierarchicalNetwork b A K Z R V D) (depth : K → Nat) (initial : K → List D) (vars : A → V) :
    List (Move A K (R × ProdState)) → Marking A K ProdState V D → Prop where
  | start : HierarchicalRun net depth initial vars [] (.start vars)
  | fire {w m a q t} (hr : HierarchicalRun net depth initial vars w m) (hq : m.state a = some q)
      (ht : (net.fsm a).Takes (net.passes depth m a) q t) :
      HierarchicalRun net depth initial vars (w ++ [.fire a t]) (net.fire m a t)
  | resetChan {w m} (hr : HierarchicalRun net depth initial vars w m) (k : K) :
      HierarchicalRun net depth initial vars (w ++ [.resetChan k])
        { m with queue := Function.update m.queue k (some (initial k)) }
  | resetNode {w m q} (hr : HierarchicalRun net depth initial vars w m) (a : A) (hq : IsInitial (net.fsm a).top q) :
      HierarchicalRun net depth initial vars (w ++ [.resetNode a]) { m with
        state := Function.update m.state a (some q)
        vars := Function.update m.vars a (net.reset a (m.vars a)) }

/-- The machines are in product states they reach. -/
def InConfig (net : HierarchicalNetwork b A K Z R V D) (m : Marking A K ProdState V D) : Prop :=
  ∀ a q, m.state a = some q → (net.fsm a).Reaches q

variable {net : HierarchicalNetwork b A K Z R V D} {depth : K → Nat} {initial : K → List D} {vars : A → V}
  {m m' : Marking A K ProdState V D} {a : A} {t : R × ProdState} {w : List (Move A K (R × ProdState))} {q : ProdState}

omit [DecidableEq K] [DecidableEq Z] [DecidableEq R] in
theorem InConfig.update (h : net.InConfig m) (hq : (net.fsm a).Reaches q)
    (hm : m'.state = Function.update m.state a (some q)) : net.InConfig m' := by
  intro a' q' hq'
  rw [hm] at hq'
  by_cases ha : a' = a
  · subst ha
    rw [Function.update_self, Option.some.injEq] at hq'
    exact hq' ▸ hq
  · rw [Function.update_of_ne ha] at hq'
    exact h a' q' hq'

omit [DecidableEq A] [DecidableEq K] [DecidableEq Z] [DecidableEq R] in
/-- A firing of the tables is one of the machines. -/
theorem takes_of_choice (h : net.InConfig m) (ht : net.flatten.choice depth m a = some t) :
    ∃ q, m.state a = some q ∧ (net.fsm a).Takes (net.passes depth m a) q t := by
  obtain ⟨q, hq, hfind⟩ := Option.bind_eq_some_iff.mp ht
  exact ⟨q, hq, (HierarchicalFSM.find_row (net.passes depth m a) (h a q hq)).mp hfind⟩

/-- A move of the tables is one of the machines. -/
theorem HierarchicalRun.move {x : Move A K (R × ProdState)} (hr : net.HierarchicalRun depth initial vars w m)
    (h : net.InConfig m) (hm : net.flatten.move depth initial m x = some m') :
    net.HierarchicalRun depth initial vars (w ++ [x]) m' ∧ net.InConfig m' := by
  cases x with
  | fire a t =>
    obtain ⟨hchoice, rfl⟩ := Network.firing_eq_some.mp hm
    obtain ⟨q, hq, ht⟩ := takes_of_choice h hchoice
    exact ⟨hr.fire hq ht, h.update ((h a q hq).step ht) rfl⟩
  | resetChan k =>
    cases hm
    exact ⟨hr.resetChan k, h⟩
  | resetNode a =>
    cases hm
    exact ⟨hr.resetNode a HierarchicalFSM.isInitial_initial, h.update HierarchicalFSM.reaches_initial rfl⟩

theorem exec_hierarchical (hm : Persistent.exec (net.flatten.move depth initial) w (.start vars) = some m) :
    net.HierarchicalRun depth initial vars w m ∧ net.InConfig m := by
  induction w using List.reverseRecOn generalizing m with
  | nil =>
    cases hm
    exact ⟨.start, by rintro a q ⟨⟩⟩
  | append_singleton w x ih =>
    rw [Persistent.exec_append] at hm
    obtain ⟨m₁, hm₁, hm⟩ := Option.bind_eq_some_iff.mp hm
    obtain ⟨hr, h⟩ := ih hm₁
    rw [Persistent.exec_cons] at hm
    obtain ⟨m₂, hm₂, hm⟩ := Option.bind_eq_some_iff.mp hm
    cases hm
    exact hr.move h hm₂

end HierarchicalNetwork

/-! ### A writer and a reader with regions -/

namespace feeding

open FiringFSM (regions regionTransitions)

def writerTransitions : List (ExpandedTransition Nat) := [⟨[0, 0, 0], [], 0, [[1]]⟩, ⟨[1], [], 1, [[1, 0, 0]]⟩]

theorem yields_of {T : Type} [DecidableEq T] {r : Option (Except FsmError T)} {t : T}
    (h : (r.any fun e => decide (e.toOption = some t)) = true) : r = some (.ok t) := by
  obtain ⟨e, rfl, he⟩ := (Option.any_eq_true _ _).mp h
  cases e with
  | error => simp [Except.toOption] at he
  | ok t' => simpa [Except.toOption] using he

def writer : HierarchicalFSM .checked Nat where
  n := 2
  states := regions
  hsinit := ⟨0, Nat.zero_lt_two⟩
  etl := writerTransitions
  fuel := 4
  table := [({[0, 0, 0], [0, 1, 0]}, [(0, {[1]})]), ({[1]}, [(1, {[1, 0, 0], [0, 1, 0]})]), ({[1, 0, 0], [0, 1, 0]}, [])]
  elaborated := by
    apply yields_of
    decide +kernel
  child := FiringFSM.regions_child
  decides := by decide
  wellFormed tr htr := by
    simp only [writerTransitions, List.mem_cons, List.not_mem_nil, or_false] at htr
    rcases htr with rfl | rfl <;> exact ⟨by decide, by decide, by unfold StateTree.Below; decide⟩

def adder : HierarchicalFSM .checked Nat where
  n := 2
  states := regions
  hsinit := ⟨0, Nat.zero_lt_two⟩
  etl := regionTransitions
  fuel := 4
  table := [({[0, 0, 0], [0, 1, 0]}, [(1, {[1]})]), ({[1]}, [(2, {[1, 0, 0], [1, 1, 0]})]),
    ({[1, 0, 0], [1, 1, 0]}, [(1, {[1]})])]
  elaborated := by
    apply yields_of
    decide +kernel
  child := FiringFSM.regions_child
  decides := by decide
  wellFormed tr htr := by
    simp only [regionTransitions, List.mem_cons, List.not_mem_nil, or_false] at htr
    rcases htr with rfl | rfl | rfl <;> exact ⟨by decide, by decide, by unfold StateTree.Below; decide⟩

def hierarchical : HierarchicalNetwork .checked Bool Unit Empty Nat Nat Nat where
  kind := feeding.kind
  fsm a := if a then adder else writer
  rule := feeding.rule
  events_nil := feeding.events_nil
  action := feeding.action
  reset := feeding.reset
  chans := feeding.chans
  nodes := feeding.nodes
  reader := feeding.reader
  reader_eq := feeding.reader_eq

theorem hierarchical_regular : hierarchical.flatten.Regular where
  isLeft a t := feeding.regular.isLeft a t.1
  nodup a t := feeding.regular.nodup a t.1
  consumed_le a t := feeding.regular.consumed_le a t.1
  produced_le a t := feeding.regular.produced_le a t.1
  complete a t := feeding.regular.complete a t.1

theorem hierarchical_elaborated {n : Nat} {l : List Nat} {ch : FifoChan Nat Bool} (hl : l.length ≤ n) (h : chan n l = some ch) :
    hierarchical.flatten.Elaborated .checked fun _ => ch := by
  intro k
  obtain ⟨n, l, rs, hl, hreq, hrs⟩ := feeding.elaborated hl h k
  exact ⟨n, l, rs, hl, hreq, fun a t => hrs a t.1⟩

end feeding

namespace HierarchicalNetwork

variable {b : Build} {A K Z R V D : Type} [DecidableEq A] [DecidableEq K] [DecidableEq Z] [DecidableEq R] [Token D] [Fintype A]

/-- A run on the tables is one of the hierarchical machines; between firings the channels, product
states and variables are theirs, and a search finds what a machine would take. -/
theorem hierarchical_run (net : HierarchicalNetwork b A K Z R V D) {chans : K → FifoChan D Bool} {vars : A → V}
    {w : List (Move A K (R × ProdState))} {s : Simulation A K Z ProdState (R × ProdState) V D} (hreg : net.flatten.Regular)
    (hbuilt : net.flatten.Elaborated b chans) (hr : Network.Run net.flatten b (Network.start chans vars) w s) :
    ∃ m, net.HierarchicalRun (fun k => (chans k).depthCount) (fun k => (chans k).initialTokens) vars w m ∧ net.InConfig m ∧
      (s.calls = [] → s.control.isExecuting = false → Network.Shows s.toNetState m ∧ ∀ a q, m.state a = some q → ∀ t,
        (net.flatten.transitions a q).find? (net.flatten.check b s.toNetState a) = some t ↔
          (net.fsm a).Takes (net.passes (fun k => (chans k).depthCount) m a) q t) := by
  obtain ⟨_, _, m, hm, h⟩ := hr.refines hreg hbuilt
  obtain ⟨hrun, hconfig⟩ := exec_hierarchical hm
  refine ⟨m, hrun, hconfig, fun hs hc => ⟨h.shows hs hc, fun a q hq t => ?_⟩⟩
  rw [CachedChoice.find?_congr fun t _ => h.check_eq hbuilt.requested hreg hs (Control.todo_eq hc)]
  exact HierarchicalFSM.find_row (net.passes _ m a) (hconfig a q hq)

theorem hierarchical_run_feeding : ∃ (chans : Unit → FifoChan Nat Bool) (w : List (Move Bool Unit (Nat × ProdState)))
    (s : Simulation Bool Unit Empty ProdState (Nat × ProdState) Nat Nat) (m : Marking Bool Unit ProdState Nat Nat),
    s.vars true = 11 ∧ (s.nodes true).currentState = some {[1, 0, 0], [1, 1, 0]} ∧
      feeding.hierarchical.HierarchicalRun (fun k => (chans k).depthCount) (fun k => (chans k).initialTokens) (fun _ => 0) w m ∧
      Network.Shows s.toNetState m := by
  have hrun : ((feeding.chan 1 []).any fun ch =>
      (feeding.hierarchical.flatten.simulate .checked (fun _ _ => True) [false, true] 80
        [.inl (.inl ()), .inr false, .inr true] (Network.start (fun _ => ch) fun _ => 0)).any fun s => s.control.isIdle &&
          decide (s.vars true = 11 ∧ (s.nodes true).currentState = some {[1, 0, 0], [1, 1, 0]} ∧ s.Settled)) = true := by
    decide +kernel
  obtain ⟨ch, hch, hrun⟩ := (Option.any_eq_true _ _).mp hrun
  obtain ⟨s, hs, hrun⟩ := (Option.any_eq_true _ _).mp hrun
  rw [Bool.and_eq_true, decide_eq_true_eq] at hrun
  obtain ⟨hidle, hsum, hstate, hset⟩ := hrun
  obtain ⟨w, hw⟩ := Network.exists_run (Network.simulate_reaches hs)
  obtain ⟨m, hm, _, h⟩ := hierarchical_run feeding.hierarchical feeding.hierarchical_regular
    (feeding.hierarchical_elaborated (by decide) hch) hw
  exact ⟨_, w, s, m, hsum, hstate, hm, (h hset.1 (by rw [Control.eq_idle hidle]; rfl)).1⟩

end HierarchicalNetwork

end SysteMoC
