import Mathlib.Data.Fintype.EquivFin
import SysteMoC.Elaboration
import SysteMoC.Flatten

/-!
# Elaboration ends

Elaboration goes on for ever just where it comes to a transition into junction
states that lead back to themselves, before it finds another fault.
-/

namespace SysteMoC

namespace FsmModel

open Fuel

variable {R : Type} {m : FsmModel R} {src : StatePath} {conds : List (StatePath × Bool)} {acc : R}
  {d : BaseState m.J m.M} {j j' : Fin m.J}

/-! ## Transitions through junction states -/

/-- All paths from the state end in destination states. -/
inductive Expands (m : FsmModel R) : BaseState m.J m.M → Prop
  | state (q : StatePath) : Expands m (.state q)
  | multi (k : Fin m.M) : (m.multi k).states ≠ [] → (m.multi k).condStates = [] → Expands m (.multi k)
  | junction (j : Fin m.J) : m.junction j ≠ [] → (∀ pt ∈ m.junction j, Expands m pt.destState) → Expands m (.junction j)

/-- The expansion of one junction state comes to that of the other. -/
def LeadsTo (m : FsmModel R) (j j' : Fin m.J) : Prop :=
  ∃ l₁ pt l₂, m.junction j = l₁ ++ pt :: l₂ ∧ (∀ pt' ∈ l₁, m.Expands pt'.destState) ∧ pt.destState = .junction j'

def Loops (m : FsmModel R) (d : BaseState m.J m.M) : Prop :=
  ∃ j j', d = .junction j ∧ Relation.ReflTransGen m.LeadsTo j j' ∧ Relation.TransGen m.LeadsTo j' j'

/-! ## The order of visits -/

/-- What elaboration does in a row: checks, and expansions of transitions. -/
inductive Visit (m : FsmModel R) where
  | check (r : Except FsmError Unit)
  | expand (d : BaseState m.J m.M)

def Visit.Passes : m.Visit → Prop
  | check r => r = .ok ()
  | expand d => m.Expands d

def visitsOf (ptl : List (PartialTransition R m.J m.M)) : List m.Visit := ptl.map fun pt => .expand pt.destState

def stateVisits (m : FsmModel R) (b : Build) (n : Nat) (p : StatePath) (bits : Nat) (child : Fin n → List m.Visit) : List m.Visit :=
  .check (b.require (n = 0 ∨ bits + flog2c n < 64)) :: (List.finRange n).flatMap child ++ visitsOf (m.ptlAt p)

def treeVisits (m : FsmModel R) (b : Build) : StateTree → StatePath → Nat → List m.Visit
  | .firing, p, bits => m.stateVisits b 0 p bits Fin.elim0
  | .xor n init c, p, bits =>
    .check (if init.isNone then .error (.modelingError "smoc_xor_state: Must specify initial state") else .ok ()) ::
      m.stateVisits b n p bits fun i => treeVisits m b (c i) (i.val :: p) (bits + flog2c n)
  | .and n c, p, bits => m.stateVisits b n p bits fun i => treeVisits m b (c i) (i.val :: p) (bits + flog2c n)

def multiVisits (m : FsmModel R) (k : Fin m.M) : List m.Visit :=
  if (m.multi k).ptl = [] then []
  else .check (if (m.multi k).states.length = 1 then .ok () else
    .error (.modelingError "smoc_multi_state: Source multi-state must specify exactly one source state!")) ::
      visitsOf (m.multi k).ptl

def visits (m : FsmModel R) (b : Build) (hsinit : Fin m.n) : List m.Visit :=
  (List.finRange m.M).flatMap m.multiVisits ++ m.treeVisits b (FiringFSM.top m.states hsinit) [] 1

/-- A transition into looping junction states comes before any fault. -/
def Stuck (L : List m.Visit) : Prop := ∃ L₁ d L₂, L = L₁ ++ .expand d :: L₂ ∧ (∀ v ∈ L₁, v.Passes) ∧ m.Loops d

theorem not_stuck_nil : ¬ Stuck ([] : List m.Visit) := by
  rintro ⟨L₁, d, L₂, h, _⟩
  cases L₁ <;> cases h

theorem stuck_cons {v : m.Visit} {L : List m.Visit} :
    Stuck (v :: L) ↔ (∃ d, v = .expand d ∧ m.Loops d) ∨ v.Passes ∧ Stuck L := by
  constructor
  · rintro ⟨L₁, d, L₂, h, hpass, hd⟩
    cases L₁ with
    | nil =>
      cases h
      exact .inl ⟨d, rfl, hd⟩
    | cons v' L₁ =>
      cases h
      exact .inr ⟨hpass v List.mem_cons_self, L₁, d, L₂, rfl, fun v' hv' => hpass v' (List.mem_cons_of_mem v hv'), hd⟩
  · rintro (⟨d, rfl, hd⟩ | ⟨hv, L₁, d, L₂, rfl, hpass, hd⟩)
    · exact ⟨[], d, L, rfl, fun _ hv' => (List.not_mem_nil hv').elim, hd⟩
    · refine ⟨v :: L₁, d, L₂, rfl, fun v' hv' => ?_, hd⟩
      rcases List.mem_cons.mp hv' with rfl | hv'
      · exact hv
      · exact hpass v' hv'

theorem stuck_append {L L' : List m.Visit} : Stuck (L ++ L') ↔ Stuck L ∨ (∀ v ∈ L, v.Passes) ∧ Stuck L' := by
  induction L with
  | nil => simp [not_stuck_nil]
  | cons v L ih =>
    rw [List.cons_append, stuck_cons, stuck_cons, ih]
    simp only [List.forall_mem_cons]
    grind

/-- The computation goes on for ever where the visits get stuck and succeeds where
all of them pass. -/
structure Follows {α : Type} (x : Nat → Fuel.Result FsmError α) (L : List m.Visit) : Prop where
  mono : Mono x
  never : Never x ↔ Stuck L
  ok : (∃ a, Settles x (.ok a)) ↔ ∀ v ∈ L, v.Passes

theorem Follows.bind {α β : Type} {x : Nat → Fuel.Result FsmError α} {f : α → Nat → Fuel.Result FsmError β}
    {L L' : List m.Visit} (hx : Follows x L) (hf : ∀ a, Follows (f a) L') :
    Follows (fun n => x n >>= fun a => f a n) (L ++ L') where
  mono := mono_bind hx.mono fun a => (hf a).mono
  never := by
    rw [never_bind hx.mono fun a => (hf a).mono, stuck_append, hx.never]
    refine or_congr Iff.rfl ?_
    rw [← hx.ok]
    constructor
    · rintro ⟨a, ha, hnever⟩
      exact ⟨⟨a, ha⟩, (hf a).never.mp hnever⟩
    · rintro ⟨⟨a, ha⟩, hs⟩
      exact ⟨a, ha, (hf a).never.mpr hs⟩
  ok := by
    simp only [List.forall_mem_append, ← hx.ok]
    constructor
    · rintro ⟨b, hb⟩
      obtain ⟨a, ha, hb⟩ := (settles_bind_ok hx.mono fun a => (hf a).mono).mp hb
      exact ⟨⟨a, ha⟩, (hf a).ok.mp ⟨b, hb⟩⟩
    · rintro ⟨⟨a, ha⟩, hpass⟩
      obtain ⟨b, hb⟩ := (hf a).ok.mpr hpass
      exact ⟨b, settles_bind ha hb⟩

theorem follows_pure {α : Type} (a : α) : Follows (m := m) (fun _ => (some (.ok a) : Fuel.Result FsmError α)) [] where
  mono := mono_pure _
  never := iff_of_false not_never_pure not_stuck_nil
  ok := iff_of_true ⟨a, settles_pure⟩ fun _ hv => (List.not_mem_nil hv).elim

theorem follows_lift (r : Except FsmError Unit) : Follows (m := m) (fun _ => Fuel.lift r) [.check r] where
  mono := mono_pure _
  never := by
    rw [stuck_cons]
    exact iff_of_false not_never_pure (by simp [not_stuck_nil])
  ok := by
    simp only [List.mem_singleton, forall_eq, Visit.Passes]
    exact ⟨fun ⟨a, h⟩ => settles_pure_iff.mp h, fun h => ⟨(), h ▸ settles_pure⟩⟩

theorem Follows.append {β : Type} {x : Nat → Fuel.Result FsmError (List β)} {L : List m.Visit} (hx : Follows x L) (l : List β) :
    Follows (fun n => x n >>= fun l' => pure (l ++ l')) L := by
  have := hx.bind fun l' => follows_pure (l ++ l')
  rwa [List.append_nil] at this

theorem follows_throw {α : Type} {e : FsmError} {L : List m.Visit} :
    Follows (m := m) (fun _ => (some (.error e) : Fuel.Result FsmError α)) (.check (.error e) :: L) where
  mono := mono_pure _
  never := by
    rw [stuck_cons]
    exact iff_of_false not_never_pure (by simp [Visit.Passes])
  ok := by
    refine iff_of_false (fun ⟨a, h⟩ => by cases settles_pure_iff.mp h) fun h => ?_
    cases h _ List.mem_cons_self

theorem follows_flatMapM {α β : Type} {g : α → Nat → Fuel.Result FsmError (List β)} {V : α → List m.Visit} {l : List α}
    (hg : ∀ a ∈ l, Follows (g a) (V a)) : Follows (fun n => l.flatMapM fun a => g a n) (l.flatMap V) := by
  induction l with
  | nil => exact follows_pure []
  | cons a l ih =>
    simp only [List.flatMapM_cons, List.flatMap_cons]
    exact (hg a List.mem_cons_self).bind fun m₁ => (ih fun a' ha' => hg a' (List.mem_cons_of_mem a ha')).append m₁

/-! ## The runtime states -/

theorem getInitialState_leaves {t u : StateTree} {mk : Finset StatePath} {p : StatePath} {s : ProdState}
    (hu : t.sub p = some u) (h : u.getInitialState mk p = .ok s) : ∀ l ∈ s, t.sub l = some .firing ∧ p <:+ l := by
  induction u generalizing p s with
  | firing =>
    cases h
    intro l hl
    rw [Finset.mem_singleton.mp hl]
    exact ⟨hu, List.suffix_refl p⟩
  | xor n init c ih =>
    rw [StateTree.getInitialState] at h
    cases hm : StateTree.markedChild mk p (List.finRange n) none with
    | error e =>
      rw [hm] at h
      cases h
    | ok i =>
      rw [hm] at h
      simp only [bind, Except.bind] at h
      cases hor : i.or init with
      | some i =>
        rw [hor] at h
        intro l hl
        obtain ⟨hleaf, hp⟩ := ih _ (StateTree.sub_xor hu (Fin.isLt _)) h l hl
        exact ⟨hleaf, (List.suffix_cons _ p).trans hp⟩
      | none =>
        rw [hor] at h
        cases h
  | and n c ih =>
    rw [StateTree.getInitialState] at h
    have hloop : ∀ (L : List (Fin n)) (s₀ s : ProdState), (∀ l ∈ s₀, t.sub l = some .firing ∧ p <:+ l) →
        L.foldlM (fun s i => do return s ∪ (← (c i).getInitialState mk (i.val :: p))) s₀ = .ok s →
        ∀ l ∈ s, t.sub l = some .firing ∧ p <:+ l := by
      intro L
      induction L with
      | nil =>
        intro s₀ s hs₀ h
        cases h
        exact hs₀
      | cons i L ihL =>
        intro s₀ s hs₀ h
        rw [List.foldlM_cons] at h
        cases hi : (c i).getInitialState mk (i.val :: p) with
        | error e =>
          rw [hi] at h
          cases h
        | ok s₁ =>
          rw [hi] at h
          refine ihL _ s (fun l hl => ?_) h
          rcases Finset.mem_union.mp hl with hl | hl
          · exact hs₀ l hl
          · obtain ⟨hleaf, hp⟩ := ih i (StateTree.sub_and hu i.isLt) hi l hl
            exact ⟨hleaf, (List.suffix_cons _ p).trans hp⟩
    exact hloop _ ∅ s (fun l hl => absurd hl (Finset.notMem_empty l)) h

theorem target_leaves {b : Build} {t : StateTree} {tr : ExpandedTransition R} {s s' : ProdState}
    (hs : FiringFSM.Leaves t s) (h : FiringFSM.target b t tr s = .ok s') : FiringFSM.Leaves t s' := by
  rw [FiringFSM.target] at h
  cases hx : t.getTopState tr.dest tr.src true with
  | error e =>
    rw [hx] at h
    cases h
  | ok x =>
    rw [hx] at h
    cases hu : t.sub x with
    | none =>
      simp only [hu, bind, Except.bind] at h
      cases h
    | some u =>
      simp only [hu, bind, Except.bind] at h
      cases hd : u.getInitialState (StateTree.markStates tr.dest) x with
      | error e =>
        simp only [hd] at h
        cases h
      | ok d =>
        simp only [hd] at h
        split at h
        · cases h
        · cases h
          intro l hl
          rcases Finset.mem_union.mp hl with hl | hl
          · exact (getInitialState_leaves hu hd l hl).1
          · exact hs l (Finset.mem_filter.mp hl).1

theorem transitionsOf_leaves {b : Build} {t : StateTree} {s : ProdState} (hs : FiringFSM.Leaves t s)
    {etl : List (ExpandedTransition R)} : ∀ {ts : List (R × ProdState)}, FiringFSM.transitionsOf b t s etl = .ok ts →
    ∀ s' ∈ ts.map Prod.snd, FiringFSM.Leaves t s' := by
  induction etl with
  | nil =>
    intro ts h
    cases h
    exact fun _ hs' => (List.not_mem_nil hs').elim
  | cons tr etl ih =>
    intro ts h
    rw [FiringFSM.transitionsOf] at h
    split at h
    · cases hd : FiringFSM.target b t tr s with
      | error e =>
        rw [hd] at h
        cases h
      | ok d =>
        rw [hd] at h
        cases hts : FiringFSM.transitionsOf b t s etl with
        | error e =>
          simp only [hts, bind, Except.bind] at h
          cases h
        | ok ts' =>
          simp only [hts, bind, Except.bind] at h
          cases h
          intro s' hs'
          rw [List.map_cons, List.mem_cons] at hs'
          rcases hs' with rfl | hs'
          · exact target_leaves hs hd
          · exact ih hts s' hs'
    · exact ih h

theorem reachable_leaves {b : Build} {t : StateTree} {etl : List (ExpandedTransition R)} {s s' : ProdState}
    (hs : FiringFSM.Leaves t s) (h : Relation.ReflTransGen (Worklist.Next (FiringFSM.transitionsOf b t · etl)) s s') :
    FiringFSM.Leaves t s' := by
  induction h with
  | refl => exact hs
  | tail _ hstep ih =>
    obtain ⟨ts, hts, hmem⟩ := hstep
    exact transitionsOf_leaves ih hts _ hmem

/-- The worklist ends whatever the codes of the states are: there are finitely many
sets of states. It fails where a set of firing states has no transitions. -/
theorem settles_run {b : Build} {t : StateTree} {s : ProdState} (hs : FiringFSM.Leaves t s)
    (etl : List (ExpandedTransition R)) :
    ∃ r, Settles (fun fuel => (Worklist.run (FiringFSM.transitionsOf b t · etl) fuel s : Fuel.Result FsmError _)) r ∧
      ∀ e, r = .error e → ∃ s, FiringFSM.Leaves t s ∧ FiringFSM.transitionsOf b t s etl = .error e := by
  classical
  let U := (t.states []).powerset.filter (FiringFSM.Leaves t)
  have hmem : ∀ s, s ∈ U ↔ FiringFSM.Leaves t s := by
    intro s
    rw [Finset.mem_filter, Finset.mem_powerset]
    refine and_iff_right_of_imp fun hs l hl => StateTree.mem_states_top.mpr ?_
    rw [hs l hl]
    rfl
  have hU : ∀ s ∈ U, ∀ ts, FiringFSM.transitionsOf b t s etl = .ok ts → ∀ s' ∈ ts.map Prod.snd, s' ∈ U := by
    intro s hs ts hts s' hs'
    rw [hmem] at hs ⊢
    exact transitionsOf_leaves hs hts s' hs'
  rcases Worklist.run_eq hU ((hmem s).mpr hs) (Nat.le_refl _) with ⟨table, h, _⟩ | ⟨s', e, h, hr, he⟩
  · exact ⟨_, ⟨_, fun fuel hfuel => Worklist.loop_mono hfuel h⟩, fun e he => nomatch he⟩
  · refine ⟨_, ⟨_, fun fuel hfuel => Worklist.loop_mono hfuel h⟩, fun e' he' => ?_⟩
    cases he'
    exact ⟨s', reachable_leaves hs hr, he⟩

theorem mono_run {b : Build} {t : StateTree} {etl : List (ExpandedTransition R)} {s : ProdState} :
    Mono fun fuel => (Worklist.run (FiringFSM.transitionsOf b t · etl) fuel s : Fuel.Result FsmError _) :=
  fun _ _ hn _ h => Worklist.loop_mono hn h

theorem mono_runtimeStates {b : Build} {t : StateTree} (etl : List (ExpandedTransition R)) :
    Mono fun fuel => Fuel.lift (t.getInitialState ∅ []) >>= fun psinit =>
      (Worklist.run (FiringFSM.transitionsOf b t · etl) fuel psinit : Fuel.Result FsmError _) :=
  mono_bind (mono_pure _) fun _ => mono_run

theorem settles_runtimeStates {b : Build} {t : StateTree} (etl : List (ExpandedTransition R)) :
    ∃ r, Settles (fun fuel => Fuel.lift (t.getInitialState ∅ []) >>= fun psinit =>
      (Worklist.run (FiringFSM.transitionsOf b t · etl) fuel psinit : Fuel.Result FsmError _)) r := by
  cases hs : t.getInitialState ∅ [] with
  | error e => exact ⟨_, settles_bind_error (settles_pure (r := .error e))⟩
  | ok s =>
    obtain ⟨r, hr, _⟩ := settles_run (b := b) (fun l hl => (getInitialState_leaves (t := t) rfl hs l hl).1) etl
    exact ⟨r, settles_bind (settles_pure (r := .ok s)) hr⟩

/-! ## Expansion -/

variable [JoinRules R]

theorem le_expandTransition (n : Nat) : ∀ {n' : Nat} {acc : R} {d : BaseState m.J m.M}, n ≤ n' →
    Le (m.expandTransition src conds n acc d) (m.expandTransition src conds n' acc d) := by
  induction n with
  | zero =>
    intro n' acc d _
    cases d with
    | state q =>
      simp only [expandTransition]
      exact fun r h => h
    | multi k =>
      simp only [expandTransition]
      exact fun r h => h
    | junction j =>
      intro r h
      cases h
  | succ n ih =>
    intro n' acc d hn
    obtain ⟨n', rfl⟩ := Nat.exists_eq_add_of_le' (Nat.le_trans (Nat.le_add_left 1 n) hn)
    cases d with
    | state q =>
      simp only [expandTransition]
      exact fun r h => h
    | multi k =>
      simp only [expandTransition]
      exact fun r h => h
    | junction j =>
      simp only [expandTransition]
      split
      · exact fun r h => h
      · exact le_flatMapM fun pt _ => ih (Nat.le_of_succ_le_succ hn)

theorem mono_expandTransition : Mono fun n => m.expandTransition src conds n acc d := fun n _ hn => le_expandTransition n hn

theorem settles_state {q : StatePath} {etl : List (ExpandedTransition R)} :
    Settles (fun n => m.expandTransition src conds n acc (.state q)) (.ok etl) ↔ etl = [⟨src, conds, acc, [q]⟩] := by
  simp only [expandTransition]
  exact settles_pure_iff.trans ⟨fun h => (Except.ok.inj h).symm, fun h => h ▸ rfl⟩

theorem settles_junction {etl : List (ExpandedTransition R)} : Settles
    (fun n => m.expandTransition src conds n acc (.junction j)) (.ok etl) ↔
    m.junction j ≠ [] ∧ ∃ etls, List.Forall₂ (fun pt etl =>
      Settles (fun n => m.expandTransition src conds n (JoinRules.join acc pt.rule) pt.destState) (.ok etl)) (m.junction j) etls ∧
      etl = etls.flatten := by
  rw [← settles_succ]
  simp only [expandTransition]
  by_cases hnil : m.junction j = []
  · simp only [hnil, if_true, ne_eq, not_true, false_and, iff_false]
    exact fun h => by cases settles_pure_iff.mp h
  · simp only [ne_eq, hnil, not_false_eq_true, true_and]
    exact settles_flatMapM fun _ _ => mono_expandTransition

theorem never_junction : (Never fun n => m.expandTransition src conds n acc (.junction j)) ↔
    ∃ l₁ pt l₂, m.junction j = l₁ ++ pt :: l₂ ∧ (∀ pt' ∈ l₁, ∃ etl,
      Settles (fun n => m.expandTransition src conds n (JoinRules.join acc pt'.rule) pt'.destState) (.ok etl)) ∧
      Never fun n => m.expandTransition src conds n (JoinRules.join acc pt.rule) pt.destState := by
  rw [← never_succ rfl]
  simp only [expandTransition]
  by_cases hnil : m.junction j = []
  · simp only [hnil, if_true]
    refine iff_of_false not_never_pure ?_
    rintro ⟨l₁, pt, l₂, h, _⟩
    cases l₁ <;> cases h
  · simp only [if_neg hnil]
    exact never_flatMapM fun _ _ => mono_expandTransition

theorem never_elim (h : Never fun n => m.expandTransition src conds n acc d) : ∃ j, d = .junction j := by
  cases d with
  | state q =>
    simp only [expandTransition] at h
    exact absurd h not_never_pure
  | multi k =>
    simp only [expandTransition] at h
    split at h
    · exact absurd h not_never_pure
    · split at h
      · exact absurd h not_never_pure
      · exact absurd h not_never_pure
  | junction j => exact ⟨j, rfl⟩

theorem expands_of_eq (n : Nat) : ∀ {acc : R} {d : BaseState m.J m.M} {etl : List (ExpandedTransition R)},
    m.expandTransition src conds n acc d = some (.ok etl) → m.Expands d := by
  induction n with
  | zero =>
    intro acc d etl h
    cases d with
    | state q => exact .state q
    | multi k =>
      simp only [expandTransition] at h
      split at h
      · cases h
      · split at h
        · cases h
        · exact .multi k ‹_› (not_not.mp ‹_›)
    | junction j => cases h
  | succ n ih =>
    intro acc d etl h
    cases d with
    | state q => exact .state q
    | multi k =>
      simp only [expandTransition] at h
      split at h
      · cases h
      · split at h
        · cases h
        · exact .multi k ‹_› (not_not.mp ‹_›)
    | junction j =>
      simp only [expandTransition] at h
      split at h
      · cases h
      · refine .junction j ‹_› fun pt hpt => ?_
        obtain ⟨etls, hall, _⟩ := flatMapM_ok h
        obtain ⟨etl', _, h'⟩ := (Pointwise.forall₂_mem hall).1 pt hpt
        exact ih h'

theorem Expands.settles (h : m.Expands d) (src : StatePath) (conds : List (StatePath × Bool)) (acc : R) :
    ∃ etl, Settles (fun n => m.expandTransition src conds n acc d) (.ok etl) := by
  induction h generalizing acc with
  | state q => exact ⟨_, settles_state.mpr rfl⟩
  | multi k hne hnil =>
    simp only [expandTransition, if_neg hne, hnil, ne_eq, not_true, if_false]
    exact ⟨_, settles_pure (r := .ok _)⟩
  | junction j hne _ ih =>
    obtain ⟨etls, hall⟩ := Pointwise.exists_forall₂ fun pt hpt => ih pt hpt (JoinRules.join acc pt.rule)
    exact ⟨_, settles_junction.mpr ⟨hne, etls, hall, rfl⟩⟩

theorem expands_iff : m.Expands d ↔ ∃ etl, Settles (fun n => m.expandTransition src conds n acc d) (.ok etl) := by
  constructor
  · exact fun h => h.settles src conds acc
  · rintro ⟨etl, n, hn⟩
    exact expands_of_eq n (hn n (Nat.le_refl n))

theorem exists_leadsTo_of_never (h : Never fun n => m.expandTransition src conds n acc (.junction j)) :
    ∃ j' acc', m.LeadsTo j j' ∧ Never fun n => m.expandTransition src conds n acc' (.junction j') := by
  obtain ⟨l₁, pt, l₂, heq, hpre, hnever⟩ := never_junction.mp h
  obtain ⟨j', hj'⟩ := never_elim hnever
  exact ⟨j', _, ⟨l₁, pt, l₂, heq, fun pt' hpt' => expands_iff.mpr (hpre pt' hpt'), hj'⟩, hj' ▸ hnever⟩

/-- There are finitely many junction states. -/
theorem loops_of_never (h : Never fun n => m.expandTransition src conds n acc d) : m.Loops d := by
  obtain ⟨j, rfl⟩ := never_elim h
  by_contra hnot
  have hirrefl : ∀ j', Relation.ReflTransGen m.LeadsTo j j' → ¬ Relation.TransGen m.LeadsTo j' j' :=
    fun j' hr ht => hnot ⟨j, j', rfl, hr, ht⟩
  let S := {j' : Fin m.J // Relation.ReflTransGen m.LeadsTo j j'}
  let after : S → S → Prop := fun x y => Relation.TransGen m.LeadsTo y.val x.val
  have : IsTrans S after := ⟨fun _ _ _ hxy hyz => hyz.trans hxy⟩
  have : Std.Irrefl after := ⟨fun x => hirrefl x.val x.property⟩
  have : Finite S := Finite.of_injective Subtype.val Subtype.val_injective
  have hwf : WellFounded after := Finite.wellFounded_of_trans_of_irrefl after
  have hall : ∀ (x : S) (acc : R), ¬ Never fun n => m.expandTransition src conds n acc (.junction x.val) := by
    intro x
    induction x using hwf.induction with
    | _ x ih =>
      intro acc hnever
      obtain ⟨j', acc', hlead, hnever'⟩ := exists_leadsTo_of_never hnever
      exact ih ⟨j', x.property.tail hlead⟩ (.single hlead) acc' hnever'
  exact hall ⟨j, .refl⟩ acc h

theorem never_of_loops (h : m.Loops d) : Never fun n => m.expandTransition src conds n acc d := by
  obtain ⟨j, j', rfl, hr, ht⟩ := h
  -- each junction state on the way leads to a further one
  have hnext : ∀ {j}, Relation.ReflTransGen m.LeadsTo j j' → ∃ j₁, m.LeadsTo j j₁ ∧ Relation.ReflTransGen m.LeadsTo j₁ j' := by
    intro j hr
    rcases Relation.ReflTransGen.cases_head hr with rfl | hstep
    · exact Relation.TransGen.head'_iff.mp ht
    · exact hstep
  have hnone : ∀ n acc j, Relation.ReflTransGen m.LeadsTo j j' → m.expandTransition src conds n acc (.junction j) = none := by
    intro n
    induction n with
    | zero => exact fun _ _ _ => rfl
    | succ n ih =>
      intro acc j hr
      obtain ⟨j₁, ⟨l₁, pt, l₂, heq, hpre, hpt⟩, hr₁⟩ := hnext hr
      have hne : m.junction j ≠ [] := by
        rw [heq]
        simp
      rw [expandTransition, if_neg hne, heq]
      refine flatMapM_none (fun pt' hpt' e he => ?_) (by rw [hpt, ih _ _ hr₁])
      obtain ⟨etl, hs⟩ := (hpre pt' hpt').settles src conds (JoinRules.join acc pt'.rule)
      cases hs.eq_of_some mono_expandTransition he
  exact fun n => hnone n acc j hr

theorem never_expandTransition : (Never fun n => m.expandTransition src conds n acc d) ↔ m.Loops d :=
  ⟨loops_of_never, never_of_loops⟩

/-! ## The traversal -/

theorem follows_expandAll (ptl : List (PartialTransition R m.J m.M)) :
    Follows (m.expandAll src conds ptl) (visitsOf ptl) := by
  rw [visitsOf, List.map_eq_flatMap]
  refine follows_flatMapM fun pt _ => ⟨mono_expandTransition, ?_, ?_⟩
  · rw [never_expandTransition, stuck_cons]
    simp [not_stuck_nil]
  · rw [← expands_iff]
    simp [Visit.Passes]

theorem follows_finaliseState {b : Build} {n bits : Nat} {p : StatePath}
    {child : Fin n → Nat → Fuel.Result FsmError (List (ExpandedTransition R))} {V : Fin n → List m.Visit}
    (ih : ∀ i, Follows (child i) (V i)) :
    Follows (fun fuel => m.finaliseState b n p bits fuel fun i => child i fuel) (m.stateVisits b n p bits V) :=
  (follows_lift _).bind fun _ => (follows_flatMapM fun i _ => ih i).bind fun etl => (follows_expandAll _).append etl

theorem follows_finalise (b : Build) (t : StateTree) (p : StatePath) (bits : Nat) :
    Follows (m.finalise b t p bits) (m.treeVisits b t p bits) := by
  induction t generalizing p bits with
  | firing =>
    have ih : ∀ i : Fin 0, Follows (m := m) (fun _ => Fin.elim0 i : Nat →
        Fuel.Result FsmError (List (ExpandedTransition R))) (Fin.elim0 i) :=
      fun i => i.elim0
    exact follows_finaliseState ih
  | xor n init c ih =>
    cases init with
    | none => exact follows_throw
    | some i =>
      exact (follows_lift (.ok ())).bind fun _ => follows_finaliseState fun i => ih i (i.val :: p) (bits + flog2c n)
  | and n c ih => exact follows_finaliseState fun i => ih i (i.val :: p) (bits + flog2c n)

theorem follows_finaliseMulti (k : Fin m.M) : Follows (m.finaliseMulti k) (m.multiVisits k) := by
  by_cases hnil : (m.multi k).ptl = []
  · have hx : m.finaliseMulti k = fun _ => pure [] := by
      funext fuel
      rw [finaliseMulti, if_pos hnil]
    rw [hx, multiVisits, if_pos hnil]
    exact follows_pure []
  · rw [multiVisits, if_neg hnil]
    match hs : (m.multi k).states with
    | [] =>
      have hx : m.finaliseMulti k = fun _ =>
          throw (.modelingError "smoc_multi_state: Source multi-state must specify exactly one source state!") := by
        funext fuel
        rw [finaliseMulti, if_neg hnil, hs]
      rw [hx]
      exact follows_throw
    | [src] =>
      have hx : m.finaliseMulti k = m.expandAll src (m.multi k).condStates (m.multi k).ptl := by
        funext fuel
        rw [finaliseMulti, if_neg hnil, hs]
      rw [hx]
      exact (follows_lift (.ok ())).bind fun _ => follows_expandAll _
    | _ :: _ :: _ =>
      have hx : m.finaliseMulti k = fun _ =>
          throw (.modelingError "smoc_multi_state: Source multi-state must specify exactly one source state!") := by
        funext fuel
        rw [finaliseMulti, if_neg hnil, hs]
      rw [hx]
      exact follows_throw

theorem follows_expandedTransitions (b : Build) (hsinit : Fin m.n) :
    Follows (m.expandedTransitions b hsinit) (m.visits b hsinit) := by
  exact (follows_flatMapM fun k _ => follows_finaliseMulti k).bind fun etl => (follows_finalise b _ [] 1).append etl

/-! ## Elaboration -/

theorem beforeEndOfElaboration_eq {b : Build} {i : Fin m.n} (hi : m.hsinit = some i) :
    m.beforeEndOfElaboration b = fun fuel => m.expandedTransitions b i fuel >>= fun etl =>
      Fuel.lift ((FiringFSM.top m.states i).getInitialState ∅ []) >>= fun psinit =>
        Worklist.run (FiringFSM.transitionsOf b (FiringFSM.top m.states i) · etl) fuel psinit := by
  funext fuel
  rw [beforeEndOfElaboration, hi]

theorem mono_beforeEndOfElaboration {b : Build} : Mono (m.beforeEndOfElaboration b) := by
  cases hi : m.hsinit with
  | none =>
    have hx : m.beforeEndOfElaboration b = fun _ =>
        throw (.modelingError "smoc_firing_fsm: Initial state must be on top hierarchy level") := by
      funext fuel
      rw [beforeEndOfElaboration, hi]
    rw [hx]
    exact mono_pure (.error _)
  | some i =>
    rw [beforeEndOfElaboration_eq hi]
    exact mono_bind (follows_expandedTransitions b i).mono mono_runtimeStates

/-- Elaboration never ends where the visits get stuck. -/
theorem never_beforeEndOfElaboration {b : Build} {i : Fin m.n} (hi : m.hsinit = some i) :
    Never (m.beforeEndOfElaboration b) ↔ Stuck (m.visits b i) := by
  have hfollows := follows_expandedTransitions b i
  rw [beforeEndOfElaboration_eq hi, never_bind hfollows.mono mono_runtimeStates, hfollows.never]
  refine or_iff_left ?_
  rintro ⟨etl, _, hnever⟩
  obtain ⟨r, hr⟩ := settles_runtimeStates (b := b) (t := FiringFSM.top m.states i) etl
  exact hr.not_never hnever

end FsmModel

end SysteMoC
