import SysteMoC.ElaborationEnds
import SysteMoC.Enumeration
import SysteMoC.Node

/-!
# The order of transitions

Without AND states a runtime state is one firing state. Its transitions come from
the state itself, then from the states around it, each with its transitions in the
order of their definition.
-/

namespace SysteMoC

open Enumeration

namespace FsmModel

open Fuel FiringFSM StateTree

variable {R : Type} {m : FsmModel R} {b : Build} {t u : StateTree} {l q : StatePath} {i : Fin m.n}
  {acc : R} {d : BaseState m.J m.M} {k : List Nat} {tr tr' : ExpandedTransition R} {etl : List (ExpandedTransition R)} {fuel : Nat}

/-! ## Children -/

theorem eq_of_suffix_cons {i j : Nat} (hi : i :: q <:+ l) (hj : j :: q <:+ l) : i = j := by
  have hs := List.suffix_of_suffix_length_le hi hj (by simp)
  cases hs.eq_of_length (by simp)
  rfl

theorem filter_other {i j : Nat} (hij : i ≠ j) (hj : j :: q <:+ l) (hsrc : ∀ tr ∈ etl, i :: q <:+ tr.src) :
    etl.filter (·.src <:+ l) = [] := by
  rw [List.filter_eq_nil_iff]
  intro tr htr hs
  exact hij (eq_of_suffix_cons ((hsrc tr htr).trans (of_decide_eq_true hs)) hj)

theorem filter_children {n : Nat} {etls : List (List (ExpandedTransition R))} {L : List (Fin n)}
    {child : Fin n → List (ExpandedTransition R) → Prop} (hL : L.Nodup) (hall : List.Forall₂ child L etls)
    (hsrc : ∀ i etl, child i etl → ∀ tr ∈ etl, i.val :: q <:+ tr.src) {j : Fin n} (hj : j.val :: q <:+ l) :
    if j ∈ L then ∃ etl, child j etl ∧ etls.flatten.filter (·.src <:+ l) = etl.filter (·.src <:+ l)
    else etls.flatten.filter (·.src <:+ l) = [] := by
  induction hall with
  | nil => simp
  | @cons i etl L etls hi hall ih =>
    obtain ⟨hiL, hL⟩ := List.nodup_cons.mp hL
    have ih := ih hL
    rw [List.flatten_cons, List.filter_append]
    by_cases hij : i = j
    · subst hij
      rw [if_neg hiL] at ih
      rw [if_pos List.mem_cons_self, ih, List.append_nil]
      exact ⟨etl, hi, rfl⟩
    · have hother := filter_other (fun h => hij (Fin.ext h)) hj (hsrc i etl hi)
      simp only [hother, List.nil_append, List.mem_cons, Ne.symm hij, false_or]
      exact ih

theorem exists_singleton {s : ProdState} (hand : ∀ q n c, t.sub q ≠ some (.and n c)) (hs : IsConfig t s) :
    ∃ l, s = {l} ∧ t.sub l = some .firing := by
  obtain ⟨l, hl, _⟩ := hs.top
  refine ⟨l, Finset.eq_singleton_iff_unique_mem.mpr ⟨hl, fun l' hl' => ?_⟩, hs.leaf l hl⟩
  have hsuffix : ∀ r, r <:+ l → r <:+ l' := by
    intro r
    induction r with
    | nil => exact fun _ => List.nil_suffix
    | cons i r ih =>
      intro h
      have hr := (List.suffix_cons i r).trans h
      obtain ⟨u, hu, hi⟩ := sub_cons (sub_of_suffix h (by rw [hs.leaf l hl]; rfl))
      cases u with
      | firing => cases hi
      | and n c => exact absurd hu (hand r n c)
      | xor n init c =>
        rcases suffix_child (ih hr) with rfl | ⟨j, hj⟩
        · rw [hs.leaf l' hl'] at hu
          cases hu
        · have := (hs.xor r n init c hu ⟨l, hl, hr⟩).unique ⟨l, hl, h⟩ ⟨l', hl', hj⟩
          exact this ▸ hj
  exact eq_of_leaf_suffix (hs.leaf l hl) (hsuffix l (List.suffix_refl l)) (by rw [hs.leaf l' hl']; rfl)

/-! ## Other addresses -/

/-- Another order of the sets of states. -/
structure Renaming (m : FsmModel R) where
  states : Equiv.Perm (Fin m.n)
  junctions : Equiv.Perm (Fin m.J)
  multis : Equiv.Perm (Fin m.M)

/-- The state below the top state gets its new position. -/
def movePath {n : Nat} (σ : Equiv.Perm (Fin n)) : StatePath → StatePath
  | [] => []
  | [i] => [if h : i < n then (σ ⟨i, h⟩).val else i]
  | i :: j :: p => i :: movePath σ (j :: p)

theorem movePath_ne_nil {n : Nat} (σ : Equiv.Perm (Fin n)) (i : Nat) (p : StatePath) : movePath σ (i :: p) ≠ [] := by
  cases p <;> simp [movePath]

theorem movePath_cons {n : Nat} (σ : Equiv.Perm (Fin n)) {p : StatePath} (i : Nat) (hp : p ≠ []) :
    movePath σ (i :: p) = i :: movePath σ p := by
  cases p with
  | nil => exact absurd rfl hp
  | cons j p => rfl

theorem movePath_symm {n : Nat} (σ : Equiv.Perm (Fin n)) (p : StatePath) : movePath σ.symm (movePath σ p) = p := by
  induction p with
  | nil => rfl
  | cons i p ih =>
    cases p with
    | nil =>
      by_cases h : i < n
      · simp [movePath, h]
      · simp [movePath, h]
    | cons j p =>
      rw [movePath_cons σ i (List.cons_ne_nil j p), movePath_cons _ i (movePath_ne_nil σ j p), ih]

theorem length_movePath {n : Nat} (σ : Equiv.Perm (Fin n)) (p : StatePath) : (movePath σ p).length = p.length := by
  induction p with
  | nil => rfl
  | cons i p ih =>
    cases p with
    | nil => rfl
    | cons j p =>
      rw [movePath_cons σ i (List.cons_ne_nil j p), List.length_cons, ih]
      rfl

theorem drop_movePath {n : Nat} (σ : Equiv.Perm (Fin n)) (k : Nat) (p : StatePath) :
    (movePath σ p).drop k = movePath σ (p.drop k) := by
  induction p generalizing k with
  | nil => simp [movePath]
  | cons i p ih =>
    cases k with
    | zero => rfl
    | succ k =>
      cases p with
      | nil => simp [movePath]
      | cons j p => rw [movePath_cons σ i (List.cons_ne_nil j p), List.drop_succ_cons, ih, List.drop_succ_cons]

theorem movePath_injective {n : Nat} (σ : Equiv.Perm (Fin n)) : Function.Injective (movePath σ) :=
  Function.LeftInverse.injective (movePath_symm σ)

namespace Renaming

def move (ρ : m.Renaming) : BaseState m.J m.M → BaseState m.J m.M
  | .state q => .state (movePath ρ.states q)
  | .junction j => .junction (ρ.junctions j)
  | .multi k => .multi (ρ.multis k)

def partialTransition (ρ : m.Renaming) (pt : PartialTransition R m.J m.M) : PartialTransition R m.J m.M :=
  ⟨pt.rule, ρ.move pt.destState⟩

def multiState (ρ : m.Renaming) (k : MultiState R m.J m.M) : MultiState R m.J m.M where
  ptl := k.ptl.map ρ.partialTransition
  states := k.states.map (movePath ρ.states)
  nodup := k.nodup.map (movePath_injective ρ.states)
  condStates := k.condStates.map fun c => (movePath ρ.states c.1, c.2)

def transition (ρ : m.Renaming) (tr : ExpandedTransition R) : ExpandedTransition R :=
  ⟨movePath ρ.states tr.src, [], tr.rule, tr.dest.map (movePath ρ.states)⟩

end Renaming

def rename (m : FsmModel R) (ρ : m.Renaming) : FsmModel R where
  n := m.n
  states i := m.states (ρ.states.symm i)
  hsinit := m.hsinit.map ρ.states
  J := m.J
  M := m.M
  ptl p := (m.ptl (movePath ρ.states.symm p)).map ρ.partialTransition
  junction j := (m.junction (ρ.junctions.symm j)).map ρ.partialTransition
  multi k := ρ.multiState (m.multi (ρ.multis.symm k))

theorem junction_rename (ρ : m.Renaming) (j : Fin m.J) (i : Nat) :
    ((m.rename ρ).junction (ρ.junctions j))[i]? = ((m.junction j)[i]?).map ρ.partialTransition := by
  change ((m.junction (ρ.junctions.symm (ρ.junctions j))).map ρ.partialTransition)[i]? = _
  rw [Equiv.symm_apply_apply, List.getElem?_map]

theorem ptl_rename (ρ : m.Renaming) (q : StatePath) (i : Nat) :
    ((m.rename ρ).ptl (movePath ρ.states q))[i]? = ((m.ptl q)[i]?).map ρ.partialTransition := by
  change ((m.ptl (movePath ρ.states.symm (movePath ρ.states q))).map ρ.partialTransition)[i]? = _
  rw [movePath_symm, List.getElem?_map]

variable [JoinRules R]

/-! ## Positions -/

/-- From the state, the transitions at these positions of junction states lead to a
destination. -/
inductive Path (m : FsmModel R) (src : StatePath) : R → BaseState m.J m.M → List Nat → ExpandedTransition R → Prop
  | state (acc : R) (q : StatePath) : Path m src acc (.state q) [] ⟨src, [], acc, [q]⟩
  | multi (acc : R) (k : Fin m.M) : Path m src acc (.multi k) [] ⟨src, [], acc, (m.multi k).states⟩
  | junction {acc : R} {j : Fin m.J} {i : Nat} {pt : PartialTransition R m.J m.M} {k : List Nat} {tr : ExpandedTransition R} :
    (m.junction j)[i]? = some pt → Path m src (JoinRules.join acc pt.rule) pt.destState k tr →
        Path m src acc (.junction j) (i :: k) tr

/-- The transition of `q` at a position, with those of junction states after it. -/
def Own (m : FsmModel R) (q : StatePath) (k : List Nat) (tr : ExpandedTransition R) : Prop :=
  ∃ i p pt, k = i :: p ∧ (m.ptl q)[i]? = some pt ∧ m.Path q pt.rule pt.destState p tr

/-- The key begins with the number of levels above the firing state. -/
def Outward (m : FsmModel R) (l : StatePath) (k : List Nat) (tr : ExpandedTransition R) : Prop :=
  ∃ level p, k = level :: p ∧ level < l.length ∧ m.Own (l.drop level) p tr

theorem path_state {q' : StatePath} : m.Path q acc (.state q') k tr ↔ k = [] ∧ tr = ⟨q, [], acc, [q']⟩ := by
  constructor
  · intro h
    cases h
    exact ⟨rfl, rfl⟩
  · rintro ⟨rfl, rfl⟩
    exact .state acc q'

theorem path_multi {k' : Fin m.M} : m.Path q acc (.multi k') k tr ↔ k = [] ∧ tr = ⟨q, [], acc, (m.multi k').states⟩ := by
  constructor
  · intro h
    cases h
    exact ⟨rfl, rfl⟩
  · rintro ⟨rfl, rfl⟩
    exact .multi acc k'

theorem path_junction {j : Fin m.J} : m.Path q acc (.junction j) k tr ↔
    ∃ i k' pt, k = i :: k' ∧ (m.junction j)[i]? = some pt ∧ m.Path q (JoinRules.join acc pt.rule) pt.destState k' tr := by
  constructor
  · rintro (_ | _ | ⟨hpt, h⟩)
    exact ⟨_, _, _, rfl, hpt, h⟩
  · rintro ⟨i, k', pt, rfl, hpt, h⟩
    exact .junction hpt h

theorem path_functional (h : m.Path q acc d k tr) : m.Path q acc d k tr' → tr = tr' := by
  induction h with
  | state acc q =>
    intro h'
    cases h'
    rfl
  | multi acc k =>
    intro h'
    cases h'
    rfl
  | junction hpt _ ih =>
    rintro (_ | _ | ⟨hpt', h'⟩)
    rw [hpt, Option.some.injEq] at hpt'
    subst hpt'
    exact ih h'

theorem own_functional : Functional (m.Own q) := by
  rintro k tr tr' ⟨i, p, pt, rfl, hpt, hpath⟩ ⟨i', p', pt', heq, hpt', hpath'⟩
  cases heq
  rw [hpt, Option.some.injEq] at hpt'
  subst hpt'
  exact path_functional hpath hpath'

theorem outward_functional : Functional (m.Outward l) := by
  rintro k tr tr' ⟨level, p, rfl, _, hown⟩ ⟨level', p', heq, _, hown'⟩
  cases heq
  exact own_functional p tr tr' hown hown'

/-! ## The list of expanded transitions -/

theorem enumerates_expandTransition (n : Nat) : ∀ {acc : R} {d : BaseState m.J m.M} {etl : List (ExpandedTransition R)},
    m.expandTransition q [] n acc d = some (.ok etl) → Enumerates (m.Path q acc d) etl := by
  have hstate : ∀ {acc : R} {d : BaseState m.J m.M} {tr : ExpandedTransition R}, m.Path q acc d [] tr →
      (∀ k tr', m.Path q acc d k tr' → k = []) → Enumerates (m.Path q acc d) [tr] := by
    intro acc d tr h hnil
    refine (enumerates_singleton tr).congr fun k tr' => ⟨?_, fun h' => ?_⟩
    · rintro ⟨rfl, rfl⟩
      exact h
    · cases hnil k tr' h'
      exact ⟨rfl, path_functional h' h⟩
  have hmulti : ∀ {n : Nat} {acc : R} {k : Fin m.M} {etl : List (ExpandedTransition R)},
      m.expandTransition q [] n acc (.multi k) = some (.ok etl) → Enumerates (m.Path q acc (.multi k)) etl := by
    intro n acc k etl h
    simp only [expandTransition] at h
    split at h
    · cases h
    · split at h
      · cases h
      · cases h
        refine hstate (.multi acc k) fun k tr' h' => ?_
        cases h'
        rfl
  induction n with
  | zero =>
    intro acc d etl h
    cases d with
    | state q' =>
      cases h
      refine hstate (.state acc q') fun k tr' h' => ?_
      cases h'
      rfl
    | multi k => exact hmulti h
    | junction j => cases h
  | succ n ih =>
    intro acc d etl h
    cases d with
    | state q' =>
      cases h
      refine hstate (.state acc q') fun k tr' h' => ?_
      cases h'
      rfl
    | multi k => exact hmulti h
    | junction j =>
      simp only [expandTransition] at h
      split at h
      · cases h
      · obtain ⟨etls, hall, rfl⟩ := flatMapM_ok h
        refine (enumerates_flatten 0 (hall.imp fun pt etl h => ih h)).congr fun k tr => ?_
        simp only [Nat.zero_add]
        constructor
        · rintro ⟨i, pt, p, hpt, rfl, hpath⟩
          exact .junction hpt hpath
        · rintro (_ | _ | ⟨hpt, hpath⟩)
          exact ⟨_, _, _, hpt, rfl, hpath⟩

theorem enumerates_own (h : m.expandAll q [] (m.ptlAt q) fuel = some (.ok etl)) :
    Enumerates (fun k tr => q ≠ [] ∧ m.Own q k tr) etl := by
  by_cases hnil : q = []
  · rw [ptlAt, if_pos hnil] at h
    cases h
    exact enumerates_nil fun k tr h => h.1 hnil
  · rw [ptlAt, if_neg hnil] at h
    obtain ⟨etls, hall, rfl⟩ := flatMapM_ok h
    refine (enumerates_flatten 0 (hall.imp fun pt etl h => enumerates_expandTransition fuel h)).congr fun k tr => ?_
    simp only [Nat.zero_add]
    constructor
    · rintro ⟨i, pt, p, hpt, rfl, hpath⟩
      exact ⟨hnil, i, p, pt, rfl, hpt, hpath⟩
    · rintro ⟨_, i, p, pt, rfl, hpt, hpath⟩
      exact ⟨i, pt, p, hpt, rfl, hpath⟩

/-! ## The transitions of a firing state -/

/-- Those of the states up to some level. -/
def Climb (m : FsmModel R) (l : StatePath) (n : Nat) (k : List Nat) (tr : ExpandedTransition R) : Prop :=
  ∃ level p, k = level :: p ∧ level ≤ n ∧ l.drop level ≠ [] ∧ m.Own (l.drop level) p tr

theorem enumerates_level {n : Nat} (h : m.expandAll (l.drop n) [] (m.ptlAt (l.drop n)) fuel = some (.ok etl)) :
    Enumerates (fun k tr => ∃ p, k = n :: p ∧ l.drop n ≠ [] ∧ m.Own (l.drop n) p tr) etl :=
  (enumerates_own h).cons n

theorem climb_zero : m.Climb l 0 k tr ↔ ∃ p, k = 0 :: p ∧ l.drop 0 ≠ [] ∧ m.Own (l.drop 0) p tr := by
  constructor
  · rintro ⟨level, p, rfl, hle, hown⟩
    rw [Nat.le_zero.mp hle] at hown ⊢
    exact ⟨p, rfl, hown⟩
  · rintro ⟨p, rfl, hown⟩
    exact ⟨0, p, rfl, Nat.le_refl 0, hown⟩

theorem climb_succ {n : Nat} : m.Climb l (n + 1) k tr ↔ m.Climb l n k tr ∨ ∃ p, k = (n + 1) :: p ∧ l.drop (n + 1) ≠ [] ∧
    m.Own (l.drop (n + 1)) p tr := by
  constructor
  · rintro ⟨level, p, rfl, hle, hown⟩
    rcases Nat.le_succ_iff.mp hle with hle | rfl
    · exact .inl ⟨level, p, rfl, hle, hown⟩
    · exact .inr ⟨p, rfl, hown⟩
  · rintro (⟨level, p, rfl, hle, hown⟩ | ⟨p, rfl, hown⟩)
    · exact ⟨level, p, rfl, Nat.le_succ_of_le hle, hown⟩
    · exact ⟨n + 1, p, rfl, Nat.le_refl _, hown⟩

theorem enumerates_finalise (hand : ∀ q n c, t.sub q ≠ some (.and n c)) (hc : m.Closed t) (hl : t.sub l = some .firing)
    {bits n : Nat} (hn : n ≤ l.length) (hu : t.sub (l.drop n) = some u) (h : m.finalise b u (l.drop n) bits fuel = some (.ok etl)) :
    Enumerates (m.Climb l n) (etl.filter (·.src <:+ l)) := by
  have hown : ∀ {n : Nat} {own : List (ExpandedTransition R)}, (t.sub (l.drop n)).isSome →
      m.expandAll (l.drop n) [] (m.ptlAt (l.drop n)) fuel = some (.ok own) → own.filter (·.src <:+ l) = own := by
    intro n own hs ho
    rw [List.filter_eq_self]
    intro tr htr
    rw [(wellFormed_own hc hs ho tr htr).2.1]
    exact decide_eq_true (List.drop_suffix n l)
  induction u generalizing n bits etl with
  | firing =>
    obtain ⟨_, etls, own, hall, ho, rfl⟩ := finaliseState_ok h
    cases hall
    have hn0 : n = 0 := by
      have hlen := congrArg List.length (eq_of_leaf_suffix hu (List.drop_suffix n l) (by rw [hl]; rfl))
      rw [List.length_drop] at hlen
      omega
    subst hn0
    rw [List.flatten_nil, List.nil_append, hown (by rw [hu]; rfl) ho]
    exact (enumerates_level ho).congr fun k tr => climb_zero.symm
  | and w c => exact absurd hu (hand _ w c)
  | xor w init c ih =>
    have hpos : n ≠ 0 := by
      rintro rfl
      rw [List.drop_zero, hl] at hu
      cases hu
    obtain ⟨n, rfl⟩ := Nat.exists_eq_succ_of_ne_zero hpos
    have hdrop : l.drop n = l[n] :: l.drop (n + 1) := List.drop_eq_getElem_cons hn
    obtain ⟨v, hv, hlt⟩ := sub_cons (sub_of_suffix (hdrop ▸ List.drop_suffix n l) (by rw [hl]; rfl))
    rw [hu, Option.some.injEq] at hv
    subst hv
    rw [finalise] at h
    split at h
    · cases h
    · obtain ⟨_, etls, own, hall, ho, rfl⟩ := finaliseState_ok h
      have hsrc : ∀ (i : Fin w) etl, m.finalise b (c i) (i.val :: l.drop (n + 1)) (bits + flog2c w) fuel = some (.ok etl) →
          ∀ tr ∈ etl, i.val :: l.drop (n + 1) <:+ tr.src :=
        fun i etl hi tr htr => (wellFormed_finalise hc (sub_xor hu i.isLt) hi tr htr).2.1
      have hchild := filter_children (List.nodup_finRange w) hall hsrc (j := ⟨l[n], hlt⟩) (hdrop ▸ List.drop_suffix n l)
      rw [if_pos (List.mem_finRange _)] at hchild
      obtain ⟨etl, hj, hfilter⟩ := hchild
      rw [List.filter_append, hfilter, hown (by rw [hu]; rfl) ho]
      have hinner := ih ⟨l[n], hlt⟩ (Nat.le_of_succ_le hn) (by rw [hdrop]; exact sub_xor hu hlt) (by rw [hdrop]; exact hj)
      refine (hinner.append (enumerates_level ho) ?_).congr fun k tr => climb_succ.symm
      rintro k k' tr tr' ⟨level, p, rfl, hle, _⟩ ⟨p', rfl, _⟩
      exact List.cons_lt_cons_iff.mpr (.inl (Nat.lt_succ_of_le hle))

theorem climb_top : m.Climb l l.length k tr ↔ m.Outward l k tr := by
  simp only [Climb, Outward, ne_eq, List.drop_eq_nil_iff, Nat.not_le]
  constructor
  · rintro ⟨level, p, rfl, _, hlt, hown⟩
    exact ⟨level, p, rfl, hlt, hown⟩
  · rintro ⟨level, p, rfl, hlt, hown⟩
    exact ⟨level, p, rfl, Nat.le_of_lt hlt, hlt, hown⟩

theorem enumerates_active (hand : ∀ q n c, (top m.states i).sub q ≠ some (.and n c)) (hmulti : ∀ k, (m.multi k).ptl = [])
    (hc : m.Closed (top m.states i)) (hl : (top m.states i).sub l = some .firing)
    (h : m.expandedTransitions b i fuel = some (.ok etl)) :
    Enumerates (m.Outward l) (etl.filter fun tr => tr.Active {l}) := by
  obtain ⟨multis, hmultis, h⟩ := bind_ok h
  obtain ⟨own, hown, h⟩ := bind_ok h
  cases h
  have hnil : multis = [] := by
    obtain ⟨etls, hall, rfl⟩ := flatMapM_ok hmultis
    rw [List.flatten_eq_nil_iff]
    intro etl hetl
    obtain ⟨k, _, hk⟩ := (Pointwise.forall₂_mem hall).2 etl hetl
    rw [finaliseMulti, if_pos (hmulti k)] at hk
    cases hk
    rfl
  subst hnil
  rw [List.nil_append]
  have hfilter : own.filter (fun tr => tr.Active {l}) = own.filter (·.src <:+ l) := by
    refine List.filter_congr fun tr htr => ?_
    obtain ⟨_, _, hconds⟩ := wellFormed_finalise hc (t := top m.states i) rfl hown tr htr
    simp [ExpandedTransition.Active, StateTree.Active, hconds]
  rw [hfilter]
  have hdrop : l.drop l.length = [] := List.drop_length
  exact (enumerates_finalise hand hc hl (Nat.le_refl _) (by rw [hdrop]; rfl) (by rw [hdrop]; exact hown)).congr fun k tr =>
      climb_top

/-! ## Renamed models -/

theorem path_rename (ρ : m.Renaming) : (m.rename ρ).Path (movePath ρ.states q) acc (ρ.move d) k tr' ↔
    ∃ tr, m.Path q acc d k tr ∧ tr' = ρ.transition tr := by
  induction k generalizing acc d with
  | nil =>
    cases d with
    | state q' =>
      refine (path_state (m := m.rename ρ)).trans ?_
      simp [path_state, Renaming.transition]
    | junction j =>
      refine (path_junction (m := m.rename ρ)).trans ?_
      simp [path_junction]
    | multi k =>
      refine (path_multi (m := m.rename ρ)).trans ?_
      simp [path_multi, Renaming.transition, rename, Renaming.multiState]
  | cons i k ih =>
    cases d with
    | state q' =>
      refine (path_state (m := m.rename ρ)).trans ?_
      simp [path_state]
    | multi k =>
      refine (path_multi (m := m.rename ρ)).trans ?_
      simp [path_multi]
    | junction j =>
      refine (path_junction (m := m.rename ρ)).trans ?_
      simp only [path_junction]
      constructor
      · rintro ⟨i', k', pt', heq, hpt', hpath⟩
        cases heq
        rw [junction_rename] at hpt'
        obtain ⟨pt, hpt, rfl⟩ := Option.map_eq_some_iff.mp hpt'
        obtain ⟨tr, htr, rfl⟩ := ih.mp hpath
        exact ⟨tr, ⟨i, k, pt, rfl, hpt, htr⟩, rfl⟩
      · rintro ⟨tr, ⟨i', k', pt, heq, hpt, hpath⟩, rfl⟩
        cases heq
        refine ⟨i, k, ρ.partialTransition pt, rfl, ?_, ih.mpr ⟨tr, hpath, rfl⟩⟩
        rw [junction_rename, hpt]
        rfl

theorem own_rename (ρ : m.Renaming) : (m.rename ρ).Own (movePath ρ.states q) k tr' ↔
    ∃ tr, m.Own q k tr ∧ tr' = ρ.transition tr := by
  constructor
  · rintro ⟨i, p, pt', rfl, hpt', hpath⟩
    rw [ptl_rename] at hpt'
    obtain ⟨pt, hpt, rfl⟩ := Option.map_eq_some_iff.mp hpt'
    obtain ⟨tr, htr, rfl⟩ := (path_rename ρ).mp hpath
    exact ⟨tr, ⟨i, p, pt, rfl, hpt, htr⟩, rfl⟩
  · rintro ⟨tr, ⟨i, p, pt, rfl, hpt, hpath⟩, rfl⟩
    refine ⟨i, p, ρ.partialTransition pt, rfl, ?_, (path_rename ρ).mpr ⟨tr, hpath, rfl⟩⟩
    rw [ptl_rename, hpt]
    rfl

theorem outward_rename (ρ : m.Renaming) : (m.rename ρ).Outward (movePath ρ.states l) k tr' ↔
    ∃ tr, m.Outward l k tr ∧ tr' = ρ.transition tr := by
  simp only [Outward, drop_movePath, length_movePath, own_rename]
  constructor
  · rintro ⟨level, p, rfl, hlt, tr, hown, rfl⟩
    exact ⟨tr, ⟨level, p, rfl, hlt, hown⟩, rfl⟩
  · rintro ⟨tr, ⟨level, p, rfl, hlt, hown⟩, rfl⟩
    exact ⟨level, p, rfl, hlt, tr, hown, rfl⟩

/-! ## Priority -/

/-- XOR states, firing states and junction states, with codes that tell which state
contains which. -/
structure Sequential (m : FsmModel R) (i : Fin m.n) : Prop where
  and : ∀ q n c, (top m.states i).sub q ≠ some (.and n c)
  multi : ∀ k, (m.multi k).ptl = []
  closed : m.Closed (top m.states i)
  decides : (top m.states i).DecidesAncestors

/-- The transitions of a runtime state have the rules and the targets of the expanded
ones. -/
def Carries (t : StateTree) (l : StatePath) (etl : List (ExpandedTransition R)) (ts : List (R × ProdState)) : Prop :=
  List.Forall₂ (fun tr rt => rt.1 = tr.rule ∧ tr.Step t {l} rt.2) etl ts

theorem flattened_of_run (hi : m.hsinit = some i) (hm : m.Sequential i) {table : List (ProdState × List (R × ProdState))}
    (h : m.beforeEndOfElaboration b fuel = some (.ok table)) :
    ∃ etl s₀, m.expandedTransitions b i fuel = some (.ok etl) ∧ IsInitial (top m.states i) s₀ ∧
      Flattened (top m.states i) etl s₀ table := by
  rw [beforeEndOfElaboration_eq hi] at h
  obtain ⟨etl, hetl, h⟩ := bind_ok h
  obtain ⟨s₀, hs₀, h⟩ := bind_ok h
  have hinit := init_of_expandedTransitions hetl
  have hcomplete : (top m.states i).Complete := by
    refine ⟨fun p u hp hu => ?_, hinit⟩
    cases u with
    | firing => rfl
    | and n c => exact absurd hp (hm.and p n c)
    | xor n init c =>
      cases hu
      obtain ⟨j, _⟩ := Option.isSome_iff_exists.mp (hinit p 0 init c hp)
      exact j.elim0
  obtain ⟨s, hs, hmem, hconfig⟩ := exists_initial hcomplete
  cases hs.symm.trans (Option.some.inj hs₀)
  have hrun := mono_run fuel (max fuel (2 ^ ((top m.states i).states []).card)) (Nat.le_max_left _ _) _ h
  rcases run_flattened (b := b) hm.decides (by simp [top]) hcomplete (wellFormed_expandedTransitions hm.closed hetl) hconfig
    (Nat.le_max_right fuel _) with ⟨table', hrun', hflat⟩ | ⟨_, e, hrun', _⟩
  · cases hrun.symm.trans hrun'
    exact ⟨etl, _, hetl, hmem, hflat⟩
  · cases hrun.symm.trans hrun'

theorem enumerates_transitions (hi : m.hsinit = some i) (hm : m.Sequential i) {table : List (ProdState × List (R × ProdState))}
    (h : m.beforeEndOfElaboration b fuel = some (.ok table)) {e : ProdState × List (R × ProdState)} (he : e ∈ table) :
    ∃ l etl, e.1 = {l} ∧ (top m.states i).sub l = some .firing ∧ Enumerates (m.Outward l) etl ∧
      Carries (top m.states i) l etl e.2 := by
  obtain ⟨etl, s₀, hetl, _, hflat⟩ := flattened_of_run hi hm h
  obtain ⟨l, hs, hl⟩ := exists_singleton hm.and (hflat.config e he)
  refine ⟨l, _, hs, hl, enumerates_active hm.and hm.multi hm.closed hl hetl, ?_⟩
  have hcarry := hflat.transitions e he
  rw [hs] at hcarry
  exact hcarry

/-- A transition of the firing state or of one around it. -/
def Moves (m : FsmModel R) (t : StateTree) (s s' : ProdState) : Prop :=
  ∃ l k tr, s = {l} ∧ m.Outward l k tr ∧ tr.Step t s s'

/-- The runtime states are the initial one and those that transitions lead to. -/
theorem runtimeStates_reachable (hi : m.hsinit = some i) (hm : m.Sequential i) {table : List (ProdState × List (R × ProdState))}
    (h : m.beforeEndOfElaboration b fuel = some (.ok table)) :
    ∃ l₀, IsInitial (top m.states i) {l₀} ∧ (table.map Prod.fst).head? = some {l₀} ∧ (table.map Prod.fst).Nodup ∧
      ∀ s, s ∈ table.map Prod.fst ↔ Relation.ReflTransGen (m.Moves (top m.states i)) {l₀} s := by
  obtain ⟨etl, s₀, hetl, hinit, hflat⟩ := flattened_of_run hi hm h
  -- in a reachable state the active transitions are those of its firing state
  have hstep : ∀ {s s'}, Relation.ReflTransGen (Steps (top m.states i) etl) s₀ s →
      (Steps (top m.states i) etl s s' ↔ m.Moves (top m.states i) s s') := by
    intro s s' hs
    obtain ⟨e, he, rfl⟩ := List.mem_map.mp ((hflat.reachable s).mpr hs)
    obtain ⟨l, hl, hleaf⟩ := exists_singleton hm.and (hflat.config e he)
    have hactive := enumerates_active hm.and hm.multi hm.closed hleaf hetl
    rw [hl]
    constructor
    · rintro ⟨tr, htr, hstep⟩
      obtain ⟨k, hk⟩ := (hactive.mem_iff outward_functional).mp (List.mem_filter.mpr ⟨htr, by simpa using hstep.1⟩)
      exact ⟨l, k, tr, rfl, hk, hstep⟩
    · rintro ⟨l', k, tr, hl', hk, hstep⟩
      cases Finset.singleton_injective hl'
      exact ⟨tr, (List.mem_filter.mp ((hactive.mem_iff outward_functional).mpr ⟨k, hk⟩)).1, hstep⟩
  have hfirst : s₀ ∈ table.map Prod.fst := (hflat.reachable s₀).mpr .refl
  obtain ⟨e, he, heq⟩ := List.mem_map.mp hfirst
  obtain ⟨l₀, hl₀, _⟩ := exists_singleton hm.and (hflat.config e he)
  rw [heq] at hl₀
  subst hl₀
  refine ⟨l₀, hinit, hflat.initial, hflat.nodup, fun s => (hflat.reachable s).trans ⟨fun hr => ?_, fun hr => ?_⟩⟩
  · induction hr with
    | refl => exact .refl
    | tail hr hs ih => exact ih.tail ((hstep hr).mp hs)
  · induction hr with
    | refl => exact .refl
    | tail _ hs ih => exact ih.tail ((hstep ih).mpr hs)

theorem enumerates_rename {ρ : m.Renaming} (h : Enumerates (m.Outward l) etl) :
    Enumerates ((m.rename ρ).Outward (movePath ρ.states l)) (etl.map ρ.transition) := by
  have hrel : List.Forall₂ (fun tr tr' => tr' = ρ.transition tr) etl (etl.map ρ.transition) := by
    rw [List.forall₂_map_right_iff]
    exact List.forall₂_same.mpr fun _ _ => rfl
  exact (h.rel hrel).congr fun k tr => (outward_rename ρ).symm

/-- There is a runtime state for the initial state and for each that transitions lead to. Each
runtime state has the transitions of its firing state in the order of their
definition, then those of the state around it and so on, whatever the order of the
sets of states. The search finds the innermost enabled one that is defined first. -/
theorem transitions_prioritised (m : FsmModel R) (b : Build) (i : Fin m.n) (hi : m.hsinit = some i) (hm : m.Sequential i)
    (fuel : Nat) (table : List (ProdState × List (R × ProdState))) (h : m.beforeEndOfElaboration b fuel = some (.ok table)) :
    (∃ l₀, IsInitial (top m.states i) {l₀} ∧ (table.map Prod.fst).head? = some {l₀} ∧ (table.map Prod.fst).Nodup ∧
      ∀ s, s ∈ table.map Prod.fst ↔ Relation.ReflTransGen (m.Moves (top m.states i)) {l₀} s) ∧
    ∀ e ∈ table, ∃ l etl, e.1 = {l} ∧ (top m.states i).sub l = some .firing ∧ Enumerates (m.Outward l) etl ∧
      Carries (top m.states i) l etl e.2 ∧
      (∀ check rt, searchActiveTransition check e.2 = some rt ↔
        First (fun k rt => ∃ tr, m.Outward l k tr ∧ rt.1 = tr.rule ∧ tr.Step (top m.states i) {l} rt.2) check rt) ∧
      ∀ (ρ : m.Renaming) fuel' table', (m.rename ρ).Sequential (ρ.states i) →
        (m.rename ρ).beforeEndOfElaboration b fuel' = some (.ok table') → ∀ e' ∈ table', e'.1 = {movePath ρ.states l} →
          Carries (top (m.rename ρ).states (ρ.states i)) (movePath ρ.states l) (etl.map ρ.transition) e'.2 := by
  refine ⟨runtimeStates_reachable hi hm h, fun e he => ?_⟩
  obtain ⟨l, etl, hs, hl, henum, hcarry⟩ := enumerates_transitions hi hm h he
  refine ⟨l, etl, hs, hl, henum, hcarry, fun check rt => ?_, fun ρ fuel' table' hρ h' e' he' hs' => ?_⟩
  · rw [searchActiveTransition_eq]
    refine find?_eq_some_iff (henum.rel hcarry) ?_ check rt
    rintro k rt rt' ⟨tr, htr, hrule, hstep⟩ ⟨tr', htr', hrule', hstep'⟩
    cases outward_functional k tr tr' htr htr'
    exact Prod.ext (hrule.trans hrule'.symm) (Step.unique hstep hstep')
  · have hi' : (m.rename ρ).hsinit = some (ρ.states i) := by
      simp [rename, hi]
    obtain ⟨l', etl', hs'', _, henum', hcarry'⟩ := enumerates_transitions hi' hρ h' he'
    cases Finset.singleton_injective (hs'.symm.trans hs'')
    rwa [henum'.unique (enumerates_rename henum) outward_functional] at hcarry'

def nestedStates (j : Fin 2) : StateTree := if j.val = 0 then .xor 2 (some ⟨0, Nat.two_pos⟩) fun _ => .firing else .firing

def nested : FsmModel (FiringRule Unit Unit Unit Nat) where
  n := 2
  states := nestedStates
  hsinit := some ⟨0, Nat.two_pos⟩
  J := 1
  M := 0
  ptl p :=
    if p = [0, 0] then [⟨⟨.expr fun _ => true, [0]⟩, .junction ⟨0, Nat.one_pos⟩⟩]
    else if p = [0] then [⟨⟨.expr fun _ => true, [1]⟩, .state [1]⟩, ⟨⟨.expr fun _ => true, [2]⟩, .state [0, 0]⟩]
    else []
  junction _ := [⟨⟨.expr fun _ => true, [3]⟩, .state [1, 0]⟩, ⟨⟨.expr fun _ => true, [4]⟩, .state [1]⟩]
  multi k := k.elim0

theorem nested_sequential : nested.Sequential (0 : Fin 2) where
  and q n c h := by
    have hmem : q ∈ (top nestedStates 0).states [] := mem_states_top.mpr (Option.isSome_iff_exists.mpr ⟨_, h⟩)
    have hstates : (top nestedStates 0).states [] = {[], [0], [1], [0, 0], [1, 0]} := by decide
    simp only [hstates, Finset.mem_insert, Finset.mem_singleton] at hmem
    rcases hmem with rfl | rfl | rfl | rfl | rfl <;> cases h
  multi k := k.elim0
  closed := by
    refine ⟨fun p pt hpt => ?_, fun j pt hpt => ?_, fun k => k.elim0, fun k => k.elim0, fun k => k.elim0⟩
    · simp only [nested] at hpt
      split at hpt
      · rw [List.mem_singleton.mp hpt]
        trivial
      · split at hpt
        · obtain _ | ⟨_, _ | ⟨_, hpt⟩⟩ := hpt
          · exact ⟨by decide, by decide⟩
          · exact ⟨by decide, by decide⟩
          · cases hpt
        · cases hpt
    · obtain _ | ⟨_, _ | ⟨_, hpt⟩⟩ := hpt
      · exact ⟨by decide, by decide⟩
      · exact ⟨by decide, by decide⟩
      · cases hpt
  decides := by decide

theorem nested_completes : ∃ table, nested.beforeEndOfElaboration Build.checked 32 = some (.ok table) := by
  have hrun : (Option.bind (nested.beforeEndOfElaboration Build.checked 32) Except.toOption).isSome = true := by decide +kernel
  match h : nested.beforeEndOfElaboration Build.checked 32 with
  | none =>
    rw [h] at hrun
    cases hrun
  | some (.error e) =>
    rw [h] at hrun
    cases hrun
  | some (.ok table) => exact ⟨table, rfl⟩

theorem transitions_prioritised_nested : ∃ table, nested.beforeEndOfElaboration Build.checked 32 = some (.ok table) ∧
    (∃ l₀, IsInitial (top nested.states (0 : Fin 2)) {l₀} ∧ (table.map Prod.fst).head? = some {l₀} ∧
      ∀ s, s ∈ table.map Prod.fst ↔ Relation.ReflTransGen (nested.Moves (top nested.states (0 : Fin 2))) {l₀} s) ∧
    ∀ e ∈ table, ∃ l etl, e.1 = {l} ∧ (top nested.states (0 : Fin 2)).sub l = some .firing ∧ Enumerates (nested.Outward l) etl ∧
      Carries (top nested.states (0 : Fin 2)) l etl e.2 := by
  obtain ⟨table, h⟩ := nested_completes
  obtain ⟨⟨l₀, hinit, hhead, _, hmem⟩, hall⟩ :=
    transitions_prioritised nested Build.checked (0 : Fin 2) rfl nested_sequential 32 table h
  refine ⟨table, h, ⟨l₀, hinit, hhead, hmem⟩, fun e he => ?_⟩
  obtain ⟨l, etl, hs, hl, henum, hcarry, _⟩ := hall e he
  exact ⟨l, etl, hs, hl, henum, hcarry⟩

end FsmModel

end SysteMoC
