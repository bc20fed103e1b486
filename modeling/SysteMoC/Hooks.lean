import SysteMoC.FiringFSM
import SysteMoC.OwnershipSound

/-!
# Transition hooks

Hooks are registered with the FSM that the actor's initial state belongs to, and
runtime transitions get the matching ones when they are made.
-/

namespace SysteMoC

structure RuntimeTransitionHook (X P Q : Type) where
  srcState : X
  action : X
  dstState : X
  preCallback : P
  postCallback : Q
deriving DecidableEq

structure RuntimeTransition (R P Q : Type) where
  firingRule : R
  destState : ProdState
  preHooks : List P
  postHooks : List Q
deriving DecidableEq

/-- What is not part of the FSM: the search for a regular expression in a text, the
names of runtime states and the text of a rule's action. -/
structure HookNames (R X : Type) where
  regexSearch : String → X → Bool
  name : ProdState → String
  actionStr : R → String

variable {R X P Q : Type}

def RuntimeTransitionHook.isMatch (N : HookNames R X) (th : RuntimeTransitionHook X P Q) (srcState actionStr dstState : String) :
    Bool :=
  N.regexSearch srcState th.srcState && N.regexSearch actionStr th.action && N.regexSearch dstState th.dstState

def RuntimeTransition.new (N : HookNames R X) (transitionHooks : List (RuntimeTransitionHook X P Q)) (srcState : ProdState)
    (firingRule : R) (destState : ProdState) : RuntimeTransition R P Q :=
  let hooks := transitionHooks.filter fun th =>
    th.isMatch N (N.name srcState) (N.actionStr firingRule) (N.name destState)
  ⟨firingRule, destState, hooks.map (·.preCallback), hooks.map (·.postCallback)⟩

namespace StateHeap

/-- With the runtime transitions of the FSM of `init`, for the tree of its states and
the expanded transitions. -/
def beforeEndOfElaboration (b : Build) (N : HookNames R X) (fuel init : Nat) {n : Nat} (states : Fin n → StateTree)
    (hsinit : Option (Fin n)) (etl : List (ExpandedTransition R)) (h : StateHeap R (RuntimeTransitionHook X P Q)) :
    Option (Except FsmError (List (ProdState × List (RuntimeTransition R P Q)))) := do
  let o ← h.state init
  let top := h.next + 1
  let h := h.created .xor
  let h ← h.unify b fuel o.fsm (← h.state top).fsm
  let g ← h.fsm o.fsm
  b.assert (top ∈ g.states)
  let table ← FiringFSM.beforeEndOfElaboration b states hsinit etl fuel
  return table.map fun table => table.map fun e =>
    (e.1, e.2.map fun tr => RuntimeTransition.new N g.transitionHooks e.1 tr.1 tr.2)

variable {H : Type} {b : Build} {h h' : StateHeap R H} {init f : Nat} {g : FsmObject H} {reg : List H}

/-- The operation merges the FSM of `init` into another one while it holds hooks. -/
def LosesHooks (h : StateHeap R H) (init : Nat) (op : StateOp R H) : Prop :=
  ∃ f g, h.fsm f = some g ∧ h.belongs f init = true ∧ g.transitionHooks ≠ [] ∧ h.Absorbed op.links f

def HookStep (b : Build) (init : Nat) (op : StateOp R H) (r r' : StateHeap R H × List H) : Prop :=
  r.1.Allowed b op ∧ r.1.Completes b op r'.1 ∧ r'.2 = r.2 ++ op.hooks ∧ ∀ s hook, op = .addTransitionHook s hook → s = init

theorem valid_of_hooks {r : StateHeap R H × List H}
    (hrun : Relation.ReflTransGen (fun r r' => ∃ op, HookStep b init op r r') (empty, []) r) : r.1.Valid := by
  induction hrun with
  | refl => exact valid_empty
  | tail _ hstep ih =>
    obtain ⟨op, hop, hc, _⟩ := hstep
    obtain ⟨h', hc', hv, _⟩ := step_spec ih hop
    exact hc.unique hc' ▸ hv

/-- The FSM of `init` holds the registered hooks and no other FSM holds any. -/
structure HoldsHooks (h : StateHeap R H) (init : Nat) (reg : List H) : Prop where
  held : ∀ f g, h.fsm f = some g → g.transitionHooks = if h.belongs f init then reg else []
  unborn : h.next ≤ init → reg = []

theorem hooksAdded_eq {op : StateOp R H} (hop : ∀ s hook, op = .addTransitionHook s hook → s = init) :
    h.hooksAdded f op = if h.belongs f init then op.hooks else [] := by
  cases op with
  | addTransitionHook s hook =>
    obtain rfl := hop s hook rfl
    rfl
  | _ => simp [hooksAdded, StateOp.hooks]

theorem hooks_nil_of_absorbed {op : StateOp R H} (ha : h.Absorbed op.links f) : op.hooks = [] := by
  obtain ⟨l, hl, _⟩ := ha
  cases op with
  | addTransitionHook s hook => cases hl
  | _ => rfl

theorem hooks_nil_of_dead {op : StateOp R H} (hop : h.Allowed b op)
    (hon : ∀ s hook, op = .addTransitionHook s hook → s = init) (hdead : ¬ h.Live init) : op.hooks = [] := by
  cases op with
  | addTransitionHook s hook =>
    obtain rfl := hon s hook rfl
    exact absurd hop hdead
  | _ => rfl

/-- An FSM that the actor's initial state is not in after the step. -/
theorem HoldsHooks.other (hh : h.HoldsHooks init reg) {op : StateOp R H}
    (hon : ∀ s hook, op = .addTransitionHook s hook → s = init) (hk : h.Hooked h' op) (hg : h'.fsm f = some g)
    (hnot : ¬ h.belongs f init = true) : g.transitionHooks = [] := by
  rcases hk.hooks f g hg with ⟨g₀, hg₀, heq⟩ | ⟨_, heq⟩
  · rw [heq, hh.held f g₀ hg₀, hooksAdded_eq hon, if_neg hnot, if_neg hnot, List.append_nil]
  · exact heq

theorem HoldsHooks.step (hv : h.Valid) (hh : h.HoldsHooks init reg) {op : StateOp R H} (hop : h.Allowed b op)
    (hc : h.Completes b op h') (hon : ∀ s hook, op = .addTransitionHook s hook → s = init) (hl : ¬ h.LosesHooks init op) :
    h'.HoldsHooks init (reg ++ op.hooks) := by
  obtain ⟨h'', hc', _, hfate, hk⟩ := step_spec hv hop
  obtain rfl := hc.unique hc'
  refine ⟨fun f g hg => ?_, fun hnext => ?_⟩
  · by_cases hlive : h.Live init
    · obtain ⟨f₀, hf₀⟩ := live_iff.mp hlive
      obtain ⟨o, ho, rfl⟩ := belongs_iff.mp hf₀
      obtain ⟨g₀, hg₀, _⟩ := hv.owner init o ho
      have hf := hfate o.fsm (by rw [hg₀]; rfl)
      by_cases hdel : h'.fsm o.fsm = none
      · rcases hf.deleted.mp hdel with hlast | ⟨f', hne, hsome, _, hmoved⟩
        · -- the actor's states are gone
          have hgone := (hf.states init hf₀).mpr hlast
          rw [if_neg fun hb => by
            obtain ⟨o', ho', _⟩ := belongs_iff.mp hb
            rw [hgone] at ho'
            cases ho']
          refine hh.other hon hk hg fun hb => ?_
          rw [belongs_unique hb hf₀, hdel] at hg
          cases hg
        · have habs : h.Absorbed op.links o.fsm := by
            by_contra hnot
            have hnl : ¬ h.LastRelease op o.fsm := fun hlast => by
              obtain ⟨o', ho', _⟩ := belongs_iff.mp (hmoved init hf₀)
              rw [(hf.states init hf₀).mpr hlast] at ho'
              cases ho'
            have := hk.kept o.fsm (by rw [hg₀]; rfl) hnot hnl
            rw [hdel] at this
            cases this
          have hnil : reg = [] := by
            have := hh.held _ g₀ hg₀
            rw [if_pos hf₀] at this
            rw [← this]
            by_contra hne
            exact hl ⟨_, g₀, hg₀, hf₀, hne, habs⟩
          rw [hnil, hooks_nil_of_absorbed habs, List.append_nil, ite_self]
          refine hh.other hon hk hg fun hb => ?_
          rw [belongs_unique hb hf₀, hdel] at hg
          cases hg
      · have hstay := hf.kept (Option.isSome_iff_ne_none.mpr hdel) init hf₀
        by_cases hff : f = o.fsm
        · subst hff
          rw [if_pos hstay]
          rcases hk.hooks _ g hg with ⟨g₁, hg₁, heq⟩ | ⟨hnone, _⟩
          · rw [heq, hh.held _ g₁ hg₁, hooksAdded_eq hon, if_pos hf₀, if_pos hf₀]
          · rw [hg₀] at hnone
            cases hnone
        · rw [if_neg fun hb => hff (belongs_unique hb hstay)]
          exact hh.other hon hk hg fun hb => hff (belongs_unique hb hf₀)
    · have hnone : ∀ f, ¬ h.belongs f init = true := fun f hb => hlive (live_iff.mpr ⟨f, hb⟩)
      rw [hooks_nil_of_dead hop hon hlive, List.append_nil, hh.other hon hk hg (hnone f)]
      by_cases hb : h'.belongs f init = true
      · rw [if_pos hb, hh.unborn ((hk.born init (live_iff.mpr ⟨f, hb⟩)).resolve_left hlive)]
      · rw [if_neg hb]
  · have hle := Nat.le_trans hk.next hnext
    have hdead : ¬ h.Live init := fun hlive => by
      rw [Live, (hv.fresh init hle).1] at hlive
      cases hlive
    rw [hh.unborn hle, hooks_nil_of_dead hop hon hdead, List.append_nil]

theorem holdsHooks_of_run {r : StateHeap R H × List H}
    (hrun : Relation.ReflTransGen (fun r r' => ∃ op, HookStep b init op r r' ∧ ¬ r.1.LosesHooks init op) (empty, []) r) :
    r.1.Valid ∧ r.1.HoldsHooks init r.2 := by
  induction hrun with
  | refl => exact ⟨valid_empty, ⟨fun _ _ hg => (nomatch hg), fun _ => rfl⟩⟩
  | @tail r r' _ hstep ih =>
    obtain ⟨op, ⟨hop, hc, hreg, hon⟩, hl⟩ := hstep
    obtain ⟨hv, hh⟩ := ih
    obtain ⟨h', hc', hv', _⟩ := step_spec hv hop
    exact ⟨hc.unique hc' ▸ hv', hreg ▸ hh.step hv hop hc hon hl⟩

/-- The FSM of the new top state comes to the actor's one, whose hooks the transitions get. -/
theorem beforeEndOfElaboration_eq {h : StateHeap R (RuntimeTransitionHook X P Q)} {g : FsmObject (RuntimeTransitionHook X P Q)}
    {o : StateObject R} (N : HookNames R X) {n : Nat} (states : Fin n → StateTree) (hsinit : Option (Fin n))
    (etl : List (ExpandedTransition R)) (hv : h.Valid) (ho : h.state init = some o) (hg : h.fsm o.fsm = some g) :
    ∃ k, ∀ fuel ≥ k, h.beforeEndOfElaboration b N fuel init states hsinit etl =
      (FiringFSM.beforeEndOfElaboration b states hsinit etl fuel).map fun table => table.map fun table =>
        table.map fun e => (e.1, e.2.map fun tr => RuntimeTransition.new N g.transitionHooks e.1 tr.1 tr.2) := by
  have htop : (h.created .xor).state (h.next + 1) = some ⟨.xor, h.next, [], none, [], none, ∅, []⟩ := by
    rw [created_state_eq, Function.update_self]
  have ho' := hv.toForest.created_state .xor ho
  obtain ⟨h₁, ⟨k, hk⟩, hu⟩ := unify_spec (b := b) (hv.toForest.created .xor) ho' htop
  refine ⟨k, fun fuel hfuel => ?_⟩
  have hkept : (h₁.fsm o.fsm).isSome :=
    hu.kept _ (by rw [hv.toForest.created_fsm .xor hg]; rfl) fun _ => belongs_self ho'
  obtain ⟨g₁, hg₁⟩ := Option.isSome_iff_exists.mp hkept
  have hhooks : g₁.transitionHooks = g.transitionHooks := by
    obtain ⟨g', hg', heq⟩ := hu.merging.old _ g₁ hg₁
    rw [hv.toForest.created_fsm .xor hg, Option.some.injEq] at hg'
    rw [heq, hg']
  have hlisted : h.next + 1 ∈ g₁.states := by
    obtain ⟨f', _, hmoved, heq⟩ := hu.merging.moved o.fsm (by rw [hv.toForest.created_fsm .xor hg]; rfl)
    obtain rfl := heq hkept
    obtain ⟨f, htop₁⟩ := hu.state_some htop
    obtain ⟨g', hg', hiff⟩ := hu.forest.owner _ _ htop₁
    obtain ⟨f'', hb, hb'⟩ := together_iff.mp hu.together
    obtain rfl := belongs_unique hb (hmoved init (belongs_self ho'))
    obtain rfl : o.fsm = f := belongs_unique hb' (belongs_self htop₁)
    rw [hg₁, Option.some.injEq] at hg'
    exact hg' ▸ hiff.mpr rfl
  rw [beforeEndOfElaboration]
  simp only [ho, htop, hk fuel hfuel, hg₁, Option.bind_eq_bind, Option.bind_some, b.assert_of hlisted, hhooks]
  cases FiringFSM.beforeEndOfElaboration b states hsinit etl fuel <;> rfl

end StateHeap

structure RuntimeTransition.Carries (N : HookNames R X) (src : ProdState) (tr : RuntimeTransition R P Q)
    (registered : List (RuntimeTransitionHook X P Q)) : Prop where
  pre : tr.preHooks = (registered.filter fun th =>
    th.isMatch N (N.name src) (N.actionStr tr.firingRule) (N.name tr.destState)).map (·.preCallback)
  post : tr.postHooks = (registered.filter fun th =>
    th.isMatch N (N.name src) (N.actionStr tr.firingRule) (N.name tr.destState)).map (·.postCallback)

namespace StateHeap

def Elaborates (b : Build) (N : HookNames R X) (init : Nat) {n : Nat} (states : Fin n → StateTree) (hsinit : Option (Fin n))
    (etl : List (ExpandedTransition R)) (h : StateHeap R (RuntimeTransitionHook X P Q))
    (table : List (ProdState × List (RuntimeTransition R P Q))) : Prop :=
  ∃ k, ∀ fuel ≥ k, h.beforeEndOfElaboration b N fuel init states hsinit etl = some (.ok table)

/-- Where no operation merges an FSM with hooks into another one, each runtime
transition has its hooks. -/
theorem hooks_carried (b : Build) (N : HookNames R X) (init : Nat)
    (r : StateHeap R (RuntimeTransitionHook X P Q) × List (RuntimeTransitionHook X P Q))
    (hrun : Relation.ReflTransGen (fun r r' => ∃ op, HookStep b init op r r' ∧ ¬ r.1.LosesHooks init op) (empty, []) r)
    {n : Nat} (states : Fin n → StateTree) (hsinit : Option (Fin n)) (etl : List (ExpandedTransition R))
    (table : List (ProdState × List (RuntimeTransition R P Q)))
    (helaborate : r.1.Elaborates b N init states hsinit etl table) :
    ∀ e ∈ table, ∀ tr ∈ e.2, tr.Carries N e.1 r.2 := by
  obtain ⟨hv, hh⟩ := holdsHooks_of_run hrun
  obtain ⟨k, hk⟩ := helaborate
  obtain ⟨o, ho, _⟩ := Option.bind_eq_some_iff.mp (hk k (Nat.le_refl _))
  obtain ⟨g, hg, _⟩ := hv.owner init o ho
  obtain ⟨k', hk'⟩ := beforeEndOfElaboration_eq (b := b) N states hsinit etl hv ho hg
  have heq := (hk' _ (Nat.le_max_right k k')).symm.trans (hk _ (Nat.le_max_left k k'))
  rw [hh.held _ g hg, if_pos (belongs_self ho)] at heq
  obtain ⟨t, _, ht⟩ := Option.map_eq_some_iff.mp heq
  cases t with
  | error e => cases ht
  | ok t =>
    cases ht
    intro e he tr htr
    obtain ⟨e₀, _, rfl⟩ := List.mem_map.mp he
    obtain ⟨tr₀, _, rfl⟩ := List.mem_map.mp htr
    exact ⟨rfl, rfl⟩

/-! ## Two states -/

theorem addTransition_merges {H : Type} {h : StateHeap R H} {s : Nat} {pt : R × Nat} {o od : StateObject R} {g g' : FsmObject H}
    (hf : h.Forest) (hs : h.state s = some o) (hd : h.state pt.2 = some od) (hne : o.fsm ≠ od.fsm)
    (hg : h.fsm o.fsm = some g) (hg' : h.fsm od.fsm = some g') :
    ∃ n, ∀ fuel ≥ n, h.addTransition b fuel s pt =
      some ((h.putState s (some { o with ptl := o.ptl ++ [pt] })).merged o.fsm od.fsm g g') := by
  have hsh : SameShape h (h.putState s (some { o with ptl := o.ptl ++ [pt] })) := .putState hs rfl rfl rfl
  obtain ⟨n, hn⟩ := unify_eq (b := b) (hsh.forest hf) hne hg hg'
  have hds : pt.2 ≠ s := by
    intro heq
    rw [heq, hs, Option.some.injEq] at hd
    exact hne (hd ▸ rfl)
  refine ⟨n, fun fuel hfuel => ?_⟩
  rw [addTransition]
  refine Option.bind_eq_some_iff.mpr ⟨o, hs, Option.bind_eq_some_iff.mpr ⟨od, ?_, hn fuel hfuel⟩⟩
  rw [putState_state, Function.update_of_ne hds, hd]

def plainNames : HookNames Nat String := ⟨fun _ x => x == "", fun _ => "s", fun _ => "a"⟩

def twoStates (_ : Fin 2) : StateTree := .firing

def twoTransitions : List (ExpandedTransition Nat) := [⟨[0], [], 8, [[1]]⟩, ⟨[1], [], 7, [[0]]⟩]

def twoTable (hooks : List (RuntimeTransitionHook String Nat Nat)) : List (ProdState × List (RuntimeTransition Nat Nat Nat)) :=
  [({[0]}, [.new plainNames hooks {[0]} 8 {[1]}]), ({[1]}, [.new plainNames hooks {[1]} 7 {[0]}])]

theorem twoStates_table {fuel : Nat} (hfuel : 3 ≤ fuel) :
    FiringFSM.beforeEndOfElaboration Build.checked twoStates (some 0) twoTransitions fuel =
      some (.ok [({[0]}, [(8, {[1]})]), ({[1]}, [(7, {[0]})])]) := by
  have hinit : (do (FiringFSM.top twoStates 0).finalise Build.checked 1
                   (FiringFSM.top twoStates 0).getInitialState ∅ [] : Except FsmError ProdState).toOption = some {[0]} := by
    decide +kernel
  have hloop : (Worklist.run (FiringFSM.transitionsOf Build.checked (FiringFSM.top twoStates 0) · twoTransitions) 3 {[0]}).bind
      Except.toOption = some [({[0]}, [(8, {[1]})]), ({[1]}, [(7, {[0]})])] := by
    decide +kernel
  have hok : ∀ {α : Type} {x : Except FsmError α} {a : α}, x.toOption = some a → x = .ok a := by
    intro α x a hx
    cases x <;> cases hx
    rfl
  obtain ⟨r, hr, htable⟩ := Option.bind_eq_some_iff.mp hloop
  rw [hok htable] at hr
  simp only [FiringFSM.beforeEndOfElaboration, hok hinit]
  exact Worklist.loop_mono hfuel hr

def anyHook : RuntimeTransitionHook String Nat Nat := ⟨"", "", "", 1, 2⟩

theorem exists_hooked : ∃ h : StateHeap Nat (RuntimeTransitionHook String Nat Nat),
    Relation.ReflTransGen (fun r r' => ∃ op, HookStep Build.checked 1 op r r' ∧ ¬ r.1.LosesHooks 1 op) (empty, []) (h, [anyHook]) ∧
      h.state 1 = some ⟨.firing, 0, [], none, [], none, ∅, []⟩ ∧ h.state 3 = some ⟨.firing, 2, [], none, [], none, ∅, []⟩ ∧
      h.fsm 0 = some ⟨{1}, 1, [anyHook]⟩ ∧ h.fsm 2 = some ⟨{3}, 1, []⟩ := by
  have hnone : ∀ {h : StateHeap Nat (RuntimeTransitionHook String Nat Nat)}
      {op : StateOp Nat (RuntimeTransitionHook String Nat Nat)},
      op.links = [] → ¬ h.LosesHooks 1 op := by
    rintro h op hlinks ⟨_, _, _, _, _, l, hl, _⟩
    rw [hlinks] at hl
    cases hl
  refine ⟨_, .tail (b := (_, [anyHook])) (.tail (b := (_, [])) (.tail .refl
      ⟨.construct .firing, ⟨trivial, ⟨0, fun _ _ => rfl⟩, rfl, by simp⟩, hnone rfl⟩)
    ⟨.addTransitionHook 1 anyHook, ⟨?_, ⟨0, fun _ _ => rfl⟩, rfl, by simp⟩, hnone rfl⟩)
    ⟨.construct .firing, ⟨trivial, ⟨0, fun _ _ => rfl⟩, rfl, by simp⟩, hnone rfl⟩, ?_⟩
  · rfl
  · exact ⟨rfl, rfl, rfl, rfl⟩

theorem elaborates_two {h : StateHeap Nat (RuntimeTransitionHook String Nat Nat)} {o : StateObject Nat}
    {g : FsmObject (RuntimeTransitionHook String Nat Nat)} (hv : h.Valid) (ho : h.state 1 = some o)
    (hg : h.fsm o.fsm = some g) :
    h.Elaborates Build.checked plainNames 1 twoStates (some 0) twoTransitions (twoTable g.transitionHooks) := by
  obtain ⟨k, hk⟩ := beforeEndOfElaboration_eq (b := Build.checked) plainNames twoStates (some 0) twoTransitions hv ho hg
  refine ⟨max k 3, fun fuel hfuel => ?_⟩
  rw [hk fuel (Nat.le_trans (Nat.le_max_left _ _) hfuel), twoStates_table (Nat.le_trans (Nat.le_max_right _ _) hfuel)]
  rfl

theorem exists_linked {H : Type} {h : StateHeap R H} {s d : Nat} {os od : StateObject R} {g g' : FsmObject H} (hv : h.Valid)
    (hs : h.state s = some os) (hd : h.state d = some od) (hne : os.fsm ≠ od.fsm) (hg : h.fsm os.fsm = some g)
    (hg' : h.fsm od.fsm = some g') (rule rule' : R) :
    ∃ h₁ h₂, h.Completes b (.addTransition s [(rule, d)]) h₁ ∧ h₁.Completes b (.addTransition d [(rule', s)]) h₂ ∧
      h₁.Together d s ∧ (∃ o, h₂.state s = some o ∧ o.fsm = os.fsm) ∧ (∃ o, h₂.state d = some o ∧ o.fsm = os.fsm) ∧
      h₂.fsm os.fsm = some { g with states := g.states ∪ g'.states, useCount := g.useCount + g'.useCount } := by
  have hds : d ≠ s := by
    rintro rfl
    rw [hs, Option.some.injEq] at hd
    exact hne (hd ▸ rfl)
  set h₁ := (h.putState s (some { os with ptl := os.ptl ++ [(rule, d)] })).merged os.fsm od.fsm g g' with hh₁
  obtain ⟨n, hn⟩ : ∃ n, ∀ fuel ≥ n, h.addTransition b fuel s (rule, d) = some h₁ :=
    addTransition_merges hv.toForest hs hd hne hg hg'
  have hs₁ : h₁.state s = some { os with ptl := os.ptl ++ [(rule, d)] } := by
    rw [hh₁, merged_state (o := { os with ptl := os.ptl ++ [(rule, d)] }) (Function.update_self _ _ _)]
    simp [hne]
  have hd₁ : h₁.state d = some { od with fsm := os.fsm } := by
    rw [hh₁, merged_state (o := od) ((Function.update_of_ne hds _ _).trans hd)]
    simp
  refine ⟨h₁, h₁.putState d (some { od with fsm := os.fsm, ptl := od.ptl ++ [(rule', s)] }), ⟨n, fun fuel hfuel => ?_⟩,
    ⟨0, fun fuel _ => ?_⟩, ⟨_, _, hd₁, hs₁, rfl⟩, ⟨_, (Function.update_of_ne hds.symm _ _).trans hs₁, rfl⟩,
    ⟨_, Function.update_self _ _ _, rfl⟩, ?_⟩
  · rw [step, List.foldlM_cons, hn fuel hfuel]
    rfl
  · have hadd : h₁.addTransition b fuel d (rule', s) =
        some (h₁.putState d (some { od with fsm := os.fsm, ptl := od.ptl ++ [(rule', s)] })) := by
      rw [addTransition]
      exact Option.bind_eq_some_iff.mpr ⟨_, hd₁, Option.bind_eq_some_iff.mpr
        ⟨_, (Function.update_of_ne hds.symm _ _).trans hs₁, unify_self⟩⟩
    rw [step, List.foldlM_cons, hadd]
    rfl
  · rw [putState_fsm, hh₁, merged_fsm, if_neg hne, if_pos rfl]

/-- The first state leads to the second one. -/
theorem hooks_carried_two : ∃ r : StateHeap Nat (RuntimeTransitionHook String Nat Nat) ×
    List (RuntimeTransitionHook String Nat Nat),
    r.2 = [anyHook] ∧ r.1.Elaborates Build.checked plainNames 1 twoStates (some 0) twoTransitions (twoTable [anyHook]) ∧
      ∀ e ∈ twoTable [anyHook], ∀ tr ∈ e.2, tr.Carries plainNames e.1 r.2 := by
  obtain ⟨h, hrun, h₁, h₃, hf₀, hf₂⟩ := exists_hooked
  obtain ⟨hv, _⟩ := holdsHooks_of_run hrun
  obtain ⟨h', h'', hc, hc', ⟨o₃, o₁, ho₃, ho₁, heq⟩, ⟨o, ho, hfsm⟩, _, hg⟩ :=
    exists_linked (b := Build.checked) hv h₁ h₃ (by decide) hf₀ hf₂ 8 7
  have hkeep₁ : ¬ h.LosesHooks 1 (.addTransition 1 [(8, 3)]) := by
    rintro ⟨f, g, _, hb, _, l, hl, _, hnot⟩
    obtain rfl : l = (1, 3) := by simpa [StateOp.links] using hl
    exact hnot hb
  have hkeep₃ : ¬ h'.LosesHooks 1 (.addTransition 3 [(7, 1)]) := by
    rintro ⟨f, g, _, hb, _, l, hl, _, hnot⟩
    obtain rfl : l = (3, 1) := by simpa [StateOp.links] using hl
    obtain ⟨f', hb₃, hb₁⟩ := together_iff.mp ⟨o₃, o₁, ho₃, ho₁, heq⟩
    exact hnot (belongs_unique hb hb₁ ▸ hb₃)
  have hrun' : Relation.ReflTransGen (fun r r' => ∃ op, HookStep Build.checked 1 op r r' ∧ ¬ r.1.LosesHooks 1 op) (empty, [])
      (h'', [anyHook]) := by
    refine .tail (b := (h', [anyHook])) (.tail hrun ⟨.addTransition 1 [(8, 3)], ⟨?_, hc, rfl, by simp⟩, hkeep₁⟩)
      ⟨.addTransition 3 [(7, 1)], ⟨?_, hc', rfl, by simp⟩, hkeep₃⟩
    · simp [Allowed, Live, h₁, h₃]
    · simp [Allowed, Live, ho₁, ho₃]
  have helaborate := elaborates_two (holdsHooks_of_run hrun').1 ho (hfsm ▸ hg)
  exact ⟨_, rfl, helaborate, hooks_carried Build.checked plainNames 1 _ hrun' twoStates (some 0) twoTransitions _ helaborate⟩

/-- The second state leads to the first one, whose FSM goes into the other with the hook. -/
theorem hooks_lost : ∃ r : StateHeap Nat (RuntimeTransitionHook String Nat Nat) × List (RuntimeTransitionHook String Nat Nat),
    Relation.ReflTransGen (fun r r' => ∃ op, HookStep Build.checked 1 op r r') (empty, []) r ∧
      r.1.Elaborates Build.checked plainNames 1 twoStates (some 0) twoTransitions (twoTable []) ∧
      ¬ ∀ e ∈ twoTable [], ∀ tr ∈ e.2, tr.Carries plainNames e.1 r.2 := by
  obtain ⟨h, hrun, h₁, h₃, hf₀, hf₂⟩ := exists_hooked
  obtain ⟨hv, _⟩ := holdsHooks_of_run hrun
  obtain ⟨h', h'', hc, hc', ⟨o₁, o₃, ho₁, ho₃, _⟩, _, ⟨o, ho, hfsm⟩, hg⟩ :=
    exists_linked (b := Build.checked) hv h₃ h₁ (by decide) hf₂ hf₀ 7 8
  have hrun' : Relation.ReflTransGen (fun r r' => ∃ op, HookStep Build.checked 1 op r r') (empty, []) (h'', [anyHook]) := by
    refine .tail (b := (h', [anyHook])) (.tail (Relation.ReflTransGen.mono (fun _ _ ⟨op, hop, _⟩ => ⟨op, hop⟩) _ _ hrun)
      ⟨.addTransition 3 [(7, 1)], ?_, hc, rfl, by simp⟩) ⟨.addTransition 1 [(8, 3)], ?_, hc', rfl, by simp⟩
    · simp [Allowed, Live, h₁, h₃]
    · simp [Allowed, Live, ho₁, ho₃]
  refine ⟨_, hrun', ?_, fun hall => ?_⟩
  · exact elaborates_two (valid_of_hooks hrun') ho (hfsm ▸ hg)
  · have hpre : ([] : List Nat) = ([anyHook].filter fun th => th.isMatch plainNames "s" "a" "s").map (·.preCallback) :=
      (hall _ List.mem_cons_self _ List.mem_cons_self).pre
    exact absurd hpre (by decide)

end StateHeap

end SysteMoC
