import Mathlib.Data.Fintype.Basic
import Mathlib.Order.WellFounded
import SysteMoC.ElaborationSound
import SysteMoC.Enumeration
import SysteMoC.Pointwise

/-!
# Expansion along paths of junction states

Where no junction state leads back to itself, a partial transition expands to one
transition for each path through junction states, in the order of definition.
-/

/-! ## Lists of settled computations -/

namespace Fuel

variable {ε α β γ : Type} {g : α → Nat → Result ε (List γ)} {rows : α → List β} {f : β → Except ε γ} {l : List α}

theorem settles_flatMapM_mapM (h : ∀ a ∈ l, Settles (g a) ((rows a).mapM f)) :
    Settles (fun n => l.flatMapM fun a => g a n) ((l.flatMap rows).mapM f) := by
  induction l with
  | nil => exact settles_pure
  | cons a l ih =>
    have ha := h a (by simp)
    have hl := ih fun a' ha' => h a' (by simp [ha'])
    simp only [List.flatMapM_cons, List.flatMap_cons, List.mapM_append]
    cases hrow : (rows a).mapM f with
    | error e =>
      rw [hrow] at ha
      exact settles_bind_error ha
    | ok m =>
      rw [hrow] at ha
      refine settles_bind ha ?_
      cases hrest : (l.flatMap rows).mapM f with
      | error e =>
        rw [hrest] at hl
        exact settles_bind_error hl
      | ok m' =>
        rw [hrest] at hl
        exact settles_bind hl settles_pure

end Fuel

namespace SysteMoC

open Enumeration

namespace FsmModel

open Fuel

variable {R : Type} (m : FsmModel R)

/-! ## Paths -/

inductive Legs : BaseState m.J m.M → List Nat → List (PartialTransition R m.J m.M) → BaseState m.J m.M → Prop
  | here {d : BaseState m.J m.M} (hd : ∀ j, d ≠ .junction j) : Legs d [] [] d
  | junction {j : Fin m.J} {i : Nat} {pt : PartialTransition R m.J m.M} {k : List Nat}
      {legs : List (PartialTransition R m.J m.M)} {d : BaseState m.J m.M} (hpt : (m.junction j)[i]? = some pt)
      (h : Legs pt.destState k legs d) : Legs (.junction j) (i :: k) (pt :: legs) d

def destination : BaseState m.J m.M → Except FsmError (List StatePath)
  | .state q => .ok [q]
  | .multi k =>
    if (m.multi k).states = [] then
      .error (.modelingError "smoc_multi_state: Destination multi-state must specify at least one target state!")
    else if (m.multi k).condStates ≠ [] then
      .error (.modelingError "smoc_multi_state: Destination multi-state must not specify any condition states!")
    else .ok (m.multi k).states
  | .junction _ => .ok []

def Leads (j j' : Fin m.J) : Prop := ∃ pt ∈ m.junction j, pt.destState = .junction j'

/-- No junction state leads back to itself. -/
def Acyclic : Prop := ∀ j, ¬ Relation.TransGen m.Leads j j

variable [JoinRules R]

def joined (acc : R) (legs : List (PartialTransition R m.J m.M)) : R :=
  legs.foldl (fun acc pt => JoinRules.join acc pt.rule) acc

def expanded (src : StatePath) (conds : List (StatePath × Bool)) (acc : R)
    (x : List (PartialTransition R m.J m.M) × BaseState m.J m.M) : Except FsmError (ExpandedTransition R) :=
  (m.destination x.2).map fun states => ⟨src, conds, m.joined acc x.1, states⟩

variable {m} {src : StatePath} {conds : List (StatePath × Bool)} {acc : R} {d : BaseState m.J m.M}

theorem mapM_singleton {β γ : Type} (f : β → Except FsmError γ) (b : β) : [b].mapM f = (f b).map fun c => [c] := by
  rw [List.mapM_cons, List.mapM_nil]
  cases f b <;> rfl

omit [JoinRules R] in
theorem enumerates_here (hd : ∀ j, d ≠ .junction j) :
    Enumerates (fun k x => m.Legs d k x.1 x.2) [(([] : List (PartialTransition R m.J m.M)), d)] := by
  refine (enumerates_singleton (([] : List (PartialTransition R m.J m.M)), d)).congr fun k x => ?_
  constructor
  · intro h
    obtain ⟨rfl, rfl⟩ := h
    exact .here hd
  · intro h
    obtain ⟨legs, d'⟩ := x
    cases h with
    | here => exact ⟨rfl, rfl⟩
    | junction => exact absurd rfl (hd _)

theorem settles_state_paths {q : StatePath} : Settles (fun n => m.expandTransition src conds n acc (.state q))
    ([([], .state q)].mapM (m.expanded src conds acc)) := by
  rw [mapM_singleton]
  refine ⟨0, fun n _ => ?_⟩
  cases n <;> rfl

theorem settles_multi_paths {k : Fin m.M} : Settles (fun n => m.expandTransition src conds n acc (.multi k))
    ([([], .multi k)].mapM (m.expanded src conds acc)) := by
  rw [mapM_singleton]
  refine ⟨0, fun n _ => ?_⟩
  have hdump : m.expandTransition src conds n acc (.multi k) =
      if (m.multi k).states = [] then
        throw (.modelingError "smoc_multi_state: Destination multi-state must specify at least one target state!")
      else if (m.multi k).condStates ≠ [] then
        throw (.modelingError "smoc_multi_state: Destination multi-state must not specify any condition states!")
      else return [⟨src, conds, acc, (m.multi k).states⟩] := by
    cases n <;> rfl
  beta_reduce
  rw [hdump]
  unfold expanded destination
  by_cases hs : (m.multi k).states = []
  · simp only [if_pos hs]
    rfl
  · by_cases hc : (m.multi k).condStates ≠ []
    · simp only [if_neg hs, if_pos hc]
      rfl
    · simp only [if_neg hs, if_neg hc]
      rfl

theorem settles_junction_paths {j : Fin m.J} (hne : m.junction j ≠ [])
    {rows : PartialTransition R m.J m.M → List (List (PartialTransition R m.J m.M) × BaseState m.J m.M)}
    (h : ∀ pt ∈ m.junction j, ∀ acc, Settles (fun n => m.expandTransition src conds n acc pt.destState)
      ((rows pt).mapM (m.expanded src conds acc))) :
    Settles (fun n => m.expandTransition src conds n acc (.junction j))
      (((m.junction j).flatMap fun pt => (rows pt).map fun x => (pt :: x.1, x.2)).mapM (m.expanded src conds acc)) := by
  have hstep : (fun n => m.expandTransition src conds (n + 1) acc (.junction j)) = fun n =>
      (m.junction j).flatMapM fun pt => m.expandTransition src conds n (JoinRules.join acc pt.rule) pt.destState := by
    funext n
    simp only [expandTransition, if_neg hne]
  refine settles_succ.mp ?_
  rw [hstep]
  refine settles_flatMapM_mapM fun pt hpt => ?_
  rw [List.mapM_map]
  exact h pt hpt _

omit [JoinRules R] in
theorem enumerates_junction {j : Fin m.J}
    {rows : PartialTransition R m.J m.M → List (List (PartialTransition R m.J m.M) × BaseState m.J m.M)}
    (h : ∀ pt ∈ m.junction j, Enumerates (fun k x => m.Legs pt.destState k x.1 x.2) (rows pt)) :
    Enumerates (fun k x => m.Legs (.junction j) k x.1 x.2)
      ((m.junction j).flatMap fun pt => (rows pt).map fun x => (pt :: x.1, x.2)) := by
  have hrows : List.Forall₂ (fun pt row => Enumerates (fun k x =>
      ∃ y : List (PartialTransition R m.J m.M) × BaseState m.J m.M, m.Legs pt.destState k y.1 y.2 ∧ x = (pt :: y.1, y.2)) row)
      (m.junction j) ((m.junction j).map fun pt => (rows pt).map fun x => (pt :: x.1, x.2)) := by
    rw [List.forall₂_map_right_iff, List.forall₂_same]
    intro pt hpt
    refine (h pt hpt).rel ?_
    rw [List.forall₂_map_right_iff, List.forall₂_same]
    exact fun _ _ => rfl
  rw [List.flatMap_def]
  refine (enumerates_flatten 0 hrows).congr fun k x => ?_
  simp only [Nat.zero_add]
  constructor
  · intro h
    obtain ⟨i, pt, p, hpt, rfl, y, hy, rfl⟩ := h
    exact .junction hpt hy
  · intro h
    obtain ⟨legs, d'⟩ := x
    cases h with
    | here hd => exact absurd rfl (hd j)
    | @junction _ i pt k legs _ hpt h => exact ⟨i, pt, k, hpt, rfl, (legs, d'), h, rfl⟩

omit [JoinRules R] in
theorem Acyclic.wellFounded (h : m.Acyclic) : WellFounded fun j' j => Relation.TransGen m.Leads j j' := by
  have htrans : IsTrans (Fin m.J) fun j' j => Relation.TransGen m.Leads j j' := ⟨fun _ _ _ hab hbc => hbc.trans hab⟩
  have hirrefl : Std.Irrefl (fun j' j : Fin m.J => Relation.TransGen m.Leads j j') := ⟨h⟩
  exact Finite.wellFounded_of_trans_of_irrefl _

/-- An acyclic network of junction states that all have transitions: the expansion is that of the paths. -/
theorem exists_paths (hacyclic : m.Acyclic) (hne : ∀ j, m.junction j ≠ []) (src : StatePath)
    (conds : List (StatePath × Bool)) (d : BaseState m.J m.M) :
    ∃ P, Enumerates (fun k x => m.Legs d k x.1 x.2) P ∧
      ∀ acc, Settles (fun n => m.expandTransition src conds n acc d) (P.mapM (m.expanded src conds acc)) := by
  have hjunction : ∀ j : Fin m.J, ∃ P, Enumerates (fun k x => m.Legs (.junction j) k x.1 x.2) P ∧
      ∀ acc, Settles (fun n => m.expandTransition src conds n acc (.junction j)) (P.mapM (m.expanded src conds acc)) := by
    intro j
    induction j using hacyclic.wellFounded.induction with
    | _ j ih =>
      have hpt : ∀ pt ∈ m.junction j, ∃ P, Enumerates (fun k x => m.Legs pt.destState k x.1 x.2) P ∧
          ∀ acc, Settles (fun n => m.expandTransition src conds n acc pt.destState) (P.mapM (m.expanded src conds acc)) := by
        intro pt hpt
        cases hd : pt.destState with
        | state q => exact ⟨_, enumerates_here (by simp), fun acc => settles_state_paths⟩
        | multi k => exact ⟨_, enumerates_here (by simp), fun acc => settles_multi_paths⟩
        | junction j' => exact ih j' (.single ⟨pt, hpt, hd⟩)
      choose! rows hrows using hpt
      exact ⟨_, enumerates_junction fun pt hpt => (hrows pt hpt).1,
        fun acc => settles_junction_paths (hne j) fun pt hpt => (hrows pt hpt).2⟩
  cases d with
  | state q => exact ⟨_, enumerates_here (by simp), fun acc => settles_state_paths⟩
  | multi k => exact ⟨_, enumerates_here (by simp), fun acc => settles_multi_paths⟩
  | junction j => exact hjunction j

/-! ## Guards and actions along a path -/

section
variable {I O S A : Type} {m : FsmModel (FiringRule I O S A)}

theorem merge_eq (a b : List A) : merge a b = a ++ b := by
  unfold merge
  by_cases ha : a = []
  · rw [if_pos ha, ha, List.nil_append]
  · by_cases hb : b = []
    · rw [if_neg ha, if_pos hb, hb, List.append_nil]
    · rw [if_neg ha, if_neg hb]

/-- A rule with the guards of `rules` in conjunction, and their actions one after the other. -/
structure Chains (rule : FiringRule I O S A) (rules : List (FiringRule I O S A)) : Prop where
  value : ∀ s, rule.guard.value s = rules.all fun r => r.guard.value s
  inputs : rule.guard.inputs = rules.flatMap fun r => r.guard.inputs
  outputs : rule.guard.outputs = rules.flatMap fun r => r.guard.outputs
  events : rule.guard.events = rules.flatMap fun r => r.guard.events
  action : rule.action = rules.flatMap fun r => r.action

theorem Chains.single (rule : FiringRule I O S A) : Chains rule [rule] := by
  constructor <;> simp

theorem Chains.join {rule : FiringRule I O S A} {rules : List (FiringRule I O S A)} (h : Chains rule rules)
    (r : FiringRule I O S A) : Chains (JoinRules.join rule r) (rules ++ [r]) := by
  constructor
  · intro s
    show (rule.guard.value s && r.guard.value s) = _
    simp [h.value s]
  · show rule.guard.inputs ++ r.guard.inputs = _
    simp [h.inputs]
  · show rule.guard.outputs ++ r.guard.outputs = _
    simp [h.outputs]
  · show rule.guard.events ++ r.guard.events = _
    simp [h.events]
  · show merge rule.action r.action = _
    simp [merge_eq, h.action]

theorem chains_joined {acc : FiringRule I O S A} {rules : List (FiringRule I O S A)} (h : Chains acc rules)
    (legs : List (PartialTransition (FiringRule I O S A) m.J m.M)) :
    Chains (m.joined acc legs) (rules ++ legs.map (·.rule)) := by
  induction legs generalizing acc rules with
  | nil => simpa [joined] using h
  | cons pt legs ih =>
    have hrest := ih (h.join pt.rule)
    rw [List.append_assoc] at hrest
    exact hrest

/-- `tr` is the expanded transition for the path `x` of the partial transition `pt`. -/
structure ExpandsAlong (src : StatePath) (conds : List (StatePath × Bool)) (pt : PartialTransition (FiringRule I O S A) m.J m.M)
    (x : List (PartialTransition (FiringRule I O S A) m.J m.M) × BaseState m.J m.M)
    (tr : ExpandedTransition (FiringRule I O S A)) : Prop where
  src : tr.src = src
  conds : tr.conds = conds
  dest : m.destination x.2 = .ok tr.dest
  rule : Chains tr.rule ((pt :: x.1).map (·.rule))

/-- A partial transition expands to one transition for each of its paths, in the order of
definition; a destination multi-state that cannot be entered is reported. -/
theorem junctions_expanded (m : FsmModel (FiringRule I O S A)) (hacyclic : m.Acyclic) (hne : ∀ j, m.junction j ≠ [])
    (src : StatePath) (conds : List (StatePath × Bool)) (pt : PartialTransition (FiringRule I O S A) m.J m.M) :
    ∃ P, Enumerates (fun k x => m.Legs pt.destState k x.1 x.2) P ∧
      Settles (fun fuel => m.expandTransition src conds fuel pt.rule pt.destState) (P.mapM (m.expanded src conds pt.rule)) ∧
      ((∀ x ∈ P, ∃ states, m.destination x.2 = .ok states) →
        ∃ etl, Settles (fun fuel => m.expandTransition src conds fuel pt.rule pt.destState) (.ok etl) ∧
          List.Forall₂ (ExpandsAlong src conds pt) P etl) := by
  obtain ⟨P, hP, hsettles⟩ := exists_paths hacyclic hne src conds pt.destState
  refine ⟨P, hP, hsettles pt.rule, fun hdest => ?_⟩
  obtain ⟨etl, hetl, hall⟩ := Pointwise.mapM_ok (f := m.expanded src conds pt.rule) fun x hx => by
    obtain ⟨states, hstates⟩ := hdest x hx
    exact ⟨_, by rw [expanded, hstates]; rfl⟩
  refine ⟨etl, hetl ▸ hsettles pt.rule, hall.imp fun x tr htr => ?_⟩
  rw [expanded] at htr
  cases hd : m.destination x.2 with
  | error e =>
    rw [hd] at htr
    cases htr
  | ok states =>
    rw [hd] at htr
    cases htr
    exact ⟨rfl, rfl, hd, chains_joined (.single pt.rule) x.1⟩

end

instance : DecidableRel m.Leads := fun j j' =>
  inferInstanceAs (Decidable (∃ pt ∈ m.junction j, pt.destState = .junction j'))

@[reducible] def diamond : FsmModel (FiringRule Unit Unit Bool Nat) where
  n := 1
  states _ := .firing
  hsinit := some ⟨0, Nat.one_pos⟩
  J := 2
  M := 1
  ptl p := if p = [0] then [⟨⟨.input () 1 1, [1]⟩, .junction ⟨0, Nat.two_pos⟩⟩] else []
  junction j := if j.val = 0 then
      [⟨⟨.expr id, [2]⟩, .junction ⟨1, Nat.one_lt_two⟩⟩, ⟨⟨.expr not, []⟩, .junction ⟨1, Nat.one_lt_two⟩⟩]
    else [⟨⟨.expr id, [3]⟩, .state [0]⟩, ⟨⟨.output () 1 1, [4]⟩, .state [0]⟩]
  multi _ := ⟨[], [[0]], by decide, [([0], true)]⟩

theorem diamond_acyclic : diamond.Acyclic := by
  have hup : ∀ j j', diamond.Leads j j' → j.val < j'.val := by decide
  intro j h
  have hlt : ∀ j', Relation.TransGen diamond.Leads j j' → j.val < j'.val := by
    intro j' h
    induction h with
    | single h => exact hup _ _ h
    | tail _ h ih => exact ih.trans (hup _ _ h)
  exact (hlt j h).false

theorem junctions_expanded_diamond : ∃ P, Enumerates (fun k x => diamond.Legs (.junction 0) k x.1 x.2) P ∧
    Settles (fun fuel => diamond.expandTransition [0] [] fuel ⟨.input () 1 1, [1]⟩ (.junction 0))
      (P.mapM (diamond.expanded [0] [] ⟨.input () 1 1, [1]⟩)) := by
  obtain ⟨P, hP, hsettles, -⟩ := junctions_expanded diamond diamond_acyclic (by decide) [0] []
    ⟨⟨.input () 1 1, [1]⟩, .junction 0⟩
  exact ⟨P, hP, hsettles⟩

/-- A path to a multi-state with a condition is reported, so there is no transition for it. -/
theorem condition_reported : diamond.Acyclic ∧ (∀ j, diamond.junction j ≠ []) ∧
    ¬ ∃ etl, Settles (fun fuel => diamond.expandTransition [0] [] fuel ⟨.expr id, [1]⟩ (.multi 0)) (.ok etl) := by
  refine ⟨diamond_acyclic, by decide, fun h => ?_⟩
  obtain ⟨etl, n, hn⟩ := h
  have hrun := hn (n + 1) (Nat.le_succ n)
  cases hrun

end FsmModel

end SysteMoC
