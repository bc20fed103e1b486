import Mathlib.Data.Finset.Powerset
import Mathlib.Data.Fintype.Basic
import SysteMoC.FlattenSound
import SysteMoC.Pointwise

/-!
# The flattened FSM

The worklist ends, its table holds the reachable configurations, and each of
them has the active transitions in the order of the list.
-/

namespace SysteMoC

namespace StateTree

variable {b : Build} {t u : StateTree} {p q l : StatePath}

/-! ## The states of a tree -/

def states : StateTree → StatePath → Finset StatePath
  | firing, p => {p}
  | xor _ _ c, p => insert p (Finset.univ.biUnion fun i => (c i).states (i.val :: p))
  | and _ c, p => insert p (Finset.univ.biUnion fun i => (c i).states (i.val :: p))

theorem suffix_child (h : p <:+ q) : q = p ∨ ∃ i, i :: p <:+ q := by
  obtain ⟨r, rfl⟩ := h
  rcases List.eq_nil_or_concat r with rfl | ⟨r, i, rfl⟩
  · exact .inl rfl
  · exact .inr ⟨i, r, by simp⟩

theorem mem_children {n : Nat} {c : Fin n → StateTree} (hp : t.sub p = some u) (hn : u.numChildren = n)
    (ih : ∀ i : Fin n, q ∈ (c i).states (i.val :: p) ↔ i.val :: p <:+ q ∧ (t.sub q).isSome) :
    q ∈ insert p (Finset.univ.biUnion fun i => (c i).states (i.val :: p)) ↔ p <:+ q ∧ (t.sub q).isSome := by
  simp only [Finset.mem_insert, Finset.mem_biUnion, Finset.mem_univ, true_and, ih]
  constructor
  · rintro (rfl | ⟨i, hi, hq⟩)
    · exact ⟨List.suffix_refl _, by rw [hp]; rfl⟩
    · exact ⟨(List.suffix_cons _ _).trans hi, hq⟩
  · rintro ⟨hpq, hq⟩
    rcases suffix_child hpq with rfl | ⟨i, hi⟩
    · exact .inl rfl
    · obtain ⟨v, hv, hlt⟩ := sub_cons (sub_of_suffix hi hq)
      rw [hp, Option.some.injEq] at hv
      subst hv
      exact .inr ⟨⟨i, hn ▸ hlt⟩, hi, hq⟩

theorem mem_states (hp : t.sub p = some u) : q ∈ u.states p ↔ p <:+ q ∧ (t.sub q).isSome := by
  induction u generalizing p with
  | firing =>
    rw [states, Finset.mem_singleton]
    constructor
    · rintro rfl
      exact ⟨List.suffix_refl _, by rw [hp]; rfl⟩
    · exact fun ⟨hpq, hq⟩ => eq_of_leaf_suffix hp hpq hq
  | xor n init c ih => exact mem_children hp rfl fun i => ih i (sub_xor hp i.isLt)
  | and n c ih => exact mem_children hp rfl fun i => ih i (sub_and hp i.isLt)

theorem mem_states_top : q ∈ t.states [] ↔ (t.sub q).isSome := by
  rw [mem_states (t := t) rfl]
  exact and_iff_right List.nil_suffix

instance : Decidable t.DecidesAncestors :=
  decidable_of_iff (∀ a ∈ t.states [], ∀ s ∈ t.states [], a ≠ [] → s ≠ [] → (t.isAncestor a s = true ↔ a <:+ s)) (by
    simp only [mem_states_top, DecidesAncestors]
    exact ⟨fun h a s ha hs hsa hss => h a hsa s hss ha hs, fun h a hsa s hss ha hs => h a s ha hs hsa hss⟩)

/-! ## Finalising -/

def noInitial : FsmError := .modelingError "smoc_xor_state: Must specify initial state"

/-- What `finalise` reports: an XOR state without initial state, or a code too
wide where assertions are checked. -/
def Unfit (t : StateTree) (e : FsmError) : Prop :=
  e = noInitial ∧ (∃ q n c, t.sub q = some (.xor n none c)) ∨ e = .assertion ∧ ∃ q, (t.sub q).isSome ∧ 64 ≤ t.bits q

theorem forM_cases {n : Nat} {f : Fin n → Except FsmError Unit} {L : List (Fin n)} :
    L.forM f = .ok () ∧ (∀ i ∈ L, f i = .ok ()) ∨ ∃ i ∈ L, ∃ e, f i = .error e ∧ L.forM f = .error e := by
  induction L with
  | nil => exact .inl ⟨rfl, fun _ hi => (List.not_mem_nil hi).elim⟩
  | cons i L ih =>
    rw [List.forM]
    cases hi : f i with
    | error e => exact .inr ⟨i, List.mem_cons_self, e, hi, rfl⟩
    | ok =>
      rcases ih with ⟨hL, hall⟩ | ⟨j, hj, e, he, hL⟩
      · refine .inl ⟨hL, fun j hj => ?_⟩
        rcases List.mem_cons.mp hj with rfl | hj
        · exact hi
        · exact hall j hj
      · exact .inr ⟨j, List.mem_cons_of_mem _ hj, e, he, hL⟩

theorem finalise_children {n : Nat} {c : Fin n → StateTree} (hp : t.sub p = some u) (hn : u.numChildren = n)
    (hc : ∀ i : Fin n, t.sub (i.val :: p) = some (c i))
    (ih : ∀ i : Fin n, ((c i).finalise b (t.bits (i.val :: p)) = .ok () ∧
      ∀ q m init c, i.val :: p <:+ q → t.sub q = some (.xor m init c) → init.isSome) ∨
      ∃ e, (c i).finalise b (t.bits (i.val :: p)) = .error e ∧ Unfit t e) :
    ∀ r, (do b.require (n = 0 ∨ t.bits p + flog2c n < 64)
             (List.finRange n).forM fun i => (c i).finalise b (t.bits p + flog2c n)) = r →
      (r = .ok () ∧ ∀ q m init c, p <:+ q → q ≠ p → t.sub q = some (.xor m init c) → init.isSome) ∨
        ∃ e, r = .error e ∧ Unfit t e := by
  have hbits : ∀ i : Nat, t.bits (i :: p) = t.bits p + flog2c n := by
    intro i
    rw [bits, codeBits_cons hp, hn]
  rintro r rfl
  cases hr : b.require (n = 0 ∨ t.bits p + flog2c n < 64) with
  | error e =>
    rw [Build.require] at hr
    split at hr
    · cases hr
    · rename_i ha
      cases hr
      right
      have hwide : ¬ (n = 0 ∨ t.bits p + flog2c n < 64) := by
        intro h
        rw [b.assert_of h] at ha
        cases ha
      simp only [not_or, Nat.not_lt] at hwide
      refine ⟨.assertion, rfl, .inr ⟨rfl, 0 :: p, ?_, by rw [hbits]; exact hwide.2⟩⟩
      rw [hc ⟨0, Nat.pos_of_ne_zero hwide.1⟩]
      rfl
  | ok =>
    simp only [← hbits 0] at *
    rcases forM_cases (f := fun i => (c i).finalise b (t.bits (0 :: p))) (L := List.finRange n) with
      ⟨hok, hall⟩ | ⟨i, _, e, he, herr⟩
    · refine .inl ⟨hok, fun q m init c' hpq hne hq => ?_⟩
      rcases suffix_child hpq with rfl | ⟨i, hi⟩
      · exact absurd rfl hne
      · obtain ⟨v, hv, hlt⟩ := sub_cons (sub_of_suffix hi (by rw [hq]; rfl))
        rw [hp, Option.some.injEq] at hv
        subst hv
        rcases ih ⟨i, hn ▸ hlt⟩ with ⟨_, hinit⟩ | ⟨e, he, _⟩
        · exact hinit q m init c' hi hq
        · have := hall ⟨i, hn ▸ hlt⟩ (List.mem_finRange _)
          rw [hbits, ← hbits 0, this] at he
          cases he
    · right
      refine ⟨e, herr, ?_⟩
      rcases ih i with ⟨hok, _⟩ | ⟨e', he', hun⟩
      · rw [hbits, ← hbits 0, he] at hok
        cases hok
      · rw [hbits, ← hbits 0, he, Except.error.injEq] at he'
        exact he' ▸ hun

theorem finalise_eq (hp : t.sub p = some u) :
    (u.finalise b (t.bits p) = .ok () ∧ ∀ q n init c, p <:+ q → t.sub q = some (.xor n init c) → init.isSome) ∨
      ∃ e, u.finalise b (t.bits p) = .error e ∧ Unfit t e := by
  induction u generalizing p with
  | firing =>
    refine .inl ⟨rfl, fun q n init c hpq hq => ?_⟩
    rw [eq_of_leaf_suffix hp hpq (by rw [hq]; rfl), hp] at hq
    cases hq
  | xor n init c ih =>
    rw [finalise]
    cases hinit : init with
    | none =>
      subst hinit
      exact .inr ⟨noInitial, rfl, .inl ⟨rfl, p, n, c, hp⟩⟩
    | some i =>
      rw [if_neg (by simp)]
      rcases finalise_children (b := b) hp rfl (fun i => sub_xor hp i.isLt) (fun i => ih i (sub_xor hp i.isLt)) _ rfl with
        ⟨hok, hall⟩ | herr
      · refine .inl ⟨hok, fun q m init' c' hpq hq => ?_⟩
        by_cases hqp : q = p
        · subst hqp
          rw [hp, Option.some.injEq] at hq
          cases hq
          rw [hinit]
          rfl
        · exact hall q m init' c' hpq hqp hq
      · exact .inr herr
  | and n c ih =>
    rw [finalise]
    rcases finalise_children (b := b) hp rfl (fun i => sub_and hp i.isLt) (fun i => ih i (sub_and hp i.isLt)) _ rfl with
      ⟨hok, hall⟩ | herr
    · refine .inl ⟨hok, fun q m init' c' hpq hq => ?_⟩
      by_cases hqp : q = p
      · subst hqp
        rw [hp] at hq
        cases hq
      · exact hall q m init' c' hpq hqp hq
    · exact .inr herr

end StateTree

namespace FiringFSM

open StateTree

variable {R : Type} {b : Build} {t : StateTree} {tr : ExpandedTransition R} {etl : List (ExpandedTransition R)}
  {s s' s₀ : ProdState} {e : FsmError}

/-! ## Reachable configurations -/

def Steps (t : StateTree) (etl : List (ExpandedTransition R)) (s s' : ProdState) : Prop := ∃ tr ∈ etl, tr.Step t s s'

theorem Step.leaves (hs : Leaves t s) (h : tr.Step t s s') : Leaves t s' := by
  obtain ⟨_, x, _, _, _, hmem⟩ := h
  intro l hl
  rcases (hmem l).mp hl with ⟨hleaf, _⟩ | ⟨hl, _⟩
  · exact hleaf
  · exact hs l hl

theorem Step.unique {s₁ s₂ : ProdState} (h₁ : tr.Step t s s₁) (h₂ : tr.Step t s s₂) : s₁ = s₂ := by
  obtain ⟨_, x, hx, _, _, hmem₁⟩ := h₁
  obtain ⟨_, y, hy, _, _, hmem₂⟩ := h₂
  have hxy : x = y := List.IsSuffix.eq_of_length_le (hy.greatest x hx.src hx.dest) (hx.greatest y hy.src hy.dest).length_le
  subst hxy
  ext l
  rw [hmem₁, hmem₂]

theorem Step.isConfig (hc : t.Complete) (hw : WellFormed t tr) (hs : IsConfig t s) (h : tr.Step t s s') : IsConfig t s' := by
  obtain ⟨hact, x, hx, _, hamb, hmem⟩ := h
  obtain ⟨u, hu⟩ := Option.isSome_iff_exists.mp (sub_of_suffix hx.src hw.src.2)
  obtain ⟨l, hl, hsl⟩ := hact.1
  exact isConfig_entered hc (fun d hd => (hw.dest d hd).2) hu hamb (fun _ => ⟨hs, l, hl, hx.src.trans hsl⟩) hmem

theorem next_iff (h : t.DecidesAncestors) (ht : t ≠ .firing) (hc : t.Complete) (hs : Leaves t s)
    (hw : ∀ tr ∈ etl, WellFormed t tr) (hok : ∃ l, transitionsOf b t s etl = .ok l) :
    Worklist.Next (transitionsOf b t · etl) s s' ↔ Steps t etl s s' := by
  obtain ⟨l, hl⟩ := hok
  have hall : List.Forall₂ (fun tr e => e.1 = tr.rule ∧ tr.Step t s e.2) (etl.filter fun tr => tr.Active s) l := by
    rcases transitionsOf_eq (b := b) h ht hc hs hw with ⟨l', hl', hall⟩ | ⟨e, he, _⟩
    · rw [hl, Except.ok.injEq] at hl'
      exact hl' ▸ hall
    · rw [hl] at he
      cases he
  constructor
  · rintro ⟨l', hl', hs'⟩
    cases hl.symm.trans hl'
    obtain ⟨e, he, rfl⟩ := List.mem_map.mp hs'
    obtain ⟨tr, htr, _, hstep⟩ := (Pointwise.forall₂_mem hall).2 e he
    exact ⟨tr, (List.mem_filter.mp htr).1, hstep⟩
  · rintro ⟨tr, htr, hstep⟩
    obtain ⟨e, he, _, hstep'⟩ := (Pointwise.forall₂_mem hall).1 tr (List.mem_filter.mpr ⟨htr, by simpa using hstep.1⟩)
    exact ⟨l, hl, List.mem_map.mpr ⟨e, he, Step.unique hstep' hstep⟩⟩

def IsInitial (t : StateTree) (s : ProdState) : Prop := ∀ l, l ∈ s ↔ t.sub l = some .firing ∧ Entered t [] [] l

/-- The table is the reachable part of the hierarchical semantics. -/
structure Flattened (t : StateTree) (etl : List (ExpandedTransition R)) (s₀ : ProdState)
    (table : List (ProdState × List (R × ProdState))) : Prop where
  nodup : (table.map Prod.fst).Nodup
  initial : (table.map Prod.fst).head? = some s₀
  reachable : ∀ s, s ∈ table.map Prod.fst ↔ Relation.ReflTransGen (Steps t etl) s₀ s
  config : ∀ e ∈ table, IsConfig t e.1
  transitions : ∀ e ∈ table, List.Forall₂ (fun tr rt => rt.1 = tr.rule ∧ tr.Step t e.1 rt.2)
    (etl.filter fun tr => tr.Active e.1) e.2

/-- The faults of a model: in its tree, or in an active transition of a reachable
configuration. -/
def Rejected (t : StateTree) (etl : List (ExpandedTransition R)) (e : FsmError) : Prop :=
  t.Unfit e ∨ ∃ s₀ s, IsInitial t s₀ ∧ Relation.ReflTransGen (Steps t etl) s₀ s ∧ Faulty t etl s e

theorem reachable_isConfig (hc : t.Complete) (hw : ∀ tr ∈ etl, WellFormed t tr) (h₀ : IsConfig t s₀)
    (h : Relation.ReflTransGen (Steps t etl) s₀ s) : IsConfig t s := by
  induction h with
  | refl => exact h₀
  | tail _ hstep ih =>
    obtain ⟨tr, htr, hstep⟩ := hstep
    exact Step.isConfig hc (hw tr htr) ih hstep

theorem steps_of_next (h : t.DecidesAncestors) (ht : t ≠ .firing) (hc : t.Complete) (hw : ∀ tr ∈ etl, WellFormed t tr)
    (h₀ : IsConfig t s₀) :
    Relation.ReflTransGen (Worklist.Next (transitionsOf b t · etl)) s₀ s → Relation.ReflTransGen (Steps t etl) s₀ s := by
  intro hr
  induction hr with
  | refl => exact .refl
  | tail _ hstep ih =>
    have hs := (reachable_isConfig hc hw h₀ ih).leaf
    obtain ⟨l, hl, _⟩ := id hstep
    exact ih.tail ((next_iff h ht hc hs hw ⟨l, hl⟩).mp hstep)

theorem run_flattened (h : t.DecidesAncestors) (ht : t ≠ .firing) (hc : t.Complete) (hw : ∀ tr ∈ etl, WellFormed t tr)
    (h₀ : IsConfig t s₀) {fuel : Nat} (hf : 2 ^ (t.states []).card ≤ fuel) :
    (∃ table, Worklist.run (transitionsOf b t · etl) fuel s₀ = some (.ok table) ∧ Flattened t etl s₀ table) ∨
      ∃ s e, Worklist.run (transitionsOf b t · etl) fuel s₀ = some (.error e) ∧
        Relation.ReflTransGen (Steps t etl) s₀ s ∧ Faulty t etl s e := by
  classical
  have hconf := fun s (hr : Relation.ReflTransGen (Worklist.Next (transitionsOf b t · etl)) s₀ s) =>
    reachable_isConfig hc hw h₀ (steps_of_next h ht hc hw h₀ hr)
  -- all sets of firing states
  let U := (t.states []).powerset.filter (Leaves t)
  have hmem : ∀ s, s ∈ U ↔ Leaves t s := by
    intro s
    rw [Finset.mem_filter, Finset.mem_powerset]
    refine and_iff_right_of_imp fun hs l hl => mem_states_top.mpr ?_
    rw [hs l hl]
    rfl
  have hU : ∀ s ∈ U, ∀ l, transitionsOf b t s etl = .ok l → ∀ s' ∈ l.map Prod.snd, s' ∈ U := by
    intro s hs l hl s' hs'
    rw [hmem] at hs ⊢
    obtain ⟨tr, _, hstep⟩ := (next_iff h ht hc hs hw ⟨l, hl⟩).mp ⟨l, hl, hs'⟩
    exact Step.leaves hs hstep
  have hcard : U.card ≤ fuel := by
    refine Nat.le_trans (Finset.card_filter_le _ _) ?_
    rwa [Finset.card_powerset]
  rcases Worklist.run_eq hU ((hmem _).mpr h₀.leaf) hcard with ⟨table, hrun, hnodup, hhead, hsucc, hreach⟩ | ⟨s, e, hrun, hr, he⟩
  · left
    refine ⟨table, hrun, hnodup, hhead, fun s => ?_, fun e he => ?_, fun e he => ?_⟩
    · rw [hreach]
      refine ⟨steps_of_next h ht hc hw h₀, fun hr => ?_⟩
      induction hr with
      | refl => exact .refl
      | @tail a s' _ hstep ih =>
        obtain ⟨e, he, rfl⟩ := List.mem_map.mp ((hreach a).mpr ih)
        exact ih.tail ((next_iff h ht hc (hconf _ ih).leaf hw ⟨e.2, hsucc e he⟩).mpr hstep)
    · exact hconf _ ((hreach _).mp (List.mem_map_of_mem he))
    · have hs := (hconf _ ((hreach _).mp (List.mem_map_of_mem he))).leaf
      rcases transitionsOf_eq (b := b) h ht hc hs hw with ⟨l, hl, hall⟩ | ⟨e', he', _⟩
      · cases (hsucc e he).symm.trans hl
        exact hall
      · cases (hsucc e he).symm.trans he'
  · refine .inr ⟨s, e, hrun, steps_of_next h ht hc hw h₀ hr, ?_⟩
    rcases transitionsOf_eq (b := b) h ht hc (hconf _ hr).leaf hw with ⟨l, hl, _⟩ | ⟨e', he', hf⟩
    · cases he.symm.trans hl
    · cases he.symm.trans he'
      exact hf

theorem exists_initial (hc : t.Complete) : ∃ s, t.getInitialState ∅ [] = .ok s ∧ IsInitial t s ∧ IsConfig t s := by
  rcases getInitialState_eq (D := []) (p := []) hc (fun _ hd => (List.not_mem_nil hd).elim) rfl with ⟨s, hs, hamb, hmem⟩ | ⟨_, hamb⟩
  · refine ⟨s, hs, hmem, ?_⟩
    refine isConfig_entered (s := ∅) hc (D := []) (fun _ hd => (List.not_mem_nil hd).elim) rfl hamb
      (fun hne => absurd rfl hne) fun l => ?_
    rw [hmem]
    simp
  · obtain ⟨r, m, init, c, i, j, _, _, _, ⟨d, hd, _⟩, _⟩ := hamb
    cases hd

/-- Flattening yields the reachable configurations with their transitions, or
reports a fault of the model. -/
theorem flatten_preserves {n : Nat} (b : Build) (states : Fin n → StateTree) (hsinit : Fin n)
    (etl : List (ExpandedTransition R)) (fuel : Nat)
    (hchild : ∀ p u, (top states hsinit).sub p = some u → u.numChildren = 0 → u = .firing)
    (hdec : (top states hsinit).DecidesAncestors) (hw : ∀ tr ∈ etl, WellFormed (top states hsinit) tr)
    (hf : 2 ^ ((top states hsinit).states []).card ≤ fuel) :
    (∃ table s₀, beforeEndOfElaboration b states (some hsinit) etl fuel = some (.ok table) ∧
      IsInitial (top states hsinit) s₀ ∧ Flattened (top states hsinit) etl s₀ table) ∨
      ∃ e, beforeEndOfElaboration b states (some hsinit) etl fuel = some (.error e) ∧
        Rejected (top states hsinit) etl e := by
  have ht : top states hsinit ≠ .firing := by
    rw [top]
    exact fun h => nomatch h
  have hfinal := finalise_eq (b := b) (t := top states hsinit) (p := []) rfl
  rw [show (top states hsinit).bits [] = 1 from rfl] at hfinal
  rcases hfinal with ⟨hok, hinit⟩ | ⟨e, he, hun⟩
  · have hc : (top states hsinit).Complete := ⟨hchild, fun p m init c hp => hinit p m init c List.nil_suffix hp⟩
    obtain ⟨s₀, hs₀, hmem, h₀⟩ := exists_initial hc
    simp only [beforeEndOfElaboration, hok, bind, Except.bind, hs₀]
    rcases run_flattened (b := b) hdec ht hc hw h₀ hf with ⟨table, hrun, hflat⟩ | ⟨s, e, hrun, hr, hfault⟩
    · exact .inl ⟨table, s₀, hrun, hmem, hflat⟩
    · exact .inr ⟨e, hrun, .inr ⟨s₀, s, hmem, hr, hfault⟩⟩
  · simp only [beforeEndOfElaboration, he, bind, Except.bind]
    exact .inr ⟨e, rfl, .inl hun⟩

def regions (i : Fin 2) : StateTree :=
  if i = 0 then .and 2 fun _ => .xor 2 (some 0) fun _ => .firing else .firing

/-- A region steps while the other one is in its second state, both are left together
and entered at given states. -/
def regionTransitions : List (ExpandedTransition Nat) :=
  [⟨[0, 0, 0], [([1, 1, 0], false)], 0, [[1, 0, 0]]⟩, ⟨[1, 0], [], 1, [[1]]⟩, ⟨[1], [], 2, [[1, 0, 0], [1, 1, 0]]⟩]

theorem regions_child (p : StatePath) (u : StateTree) (hp : (top regions 0).sub p = some u) (hu : u.numChildren = 0) :
    u = .firing := by
  have hmem : p ∈ (top regions 0).states [] := mem_states_top.mpr (by rw [hp]; rfl)
  have hstates : (top regions 0).states [] =
      {[], [0], [1], [0, 0], [1, 0], [0, 0, 0], [1, 0, 0], [0, 1, 0], [1, 1, 0]} := by decide
  simp only [hstates, Finset.mem_insert, Finset.mem_singleton] at hmem
  rcases hmem with rfl | rfl | rfl | rfl | rfl | rfl | rfl | rfl | rfl <;> cases hp <;> first | rfl | cases hu

theorem flatten_preserves_regions :
    (∃ table s₀, beforeEndOfElaboration ⟨true, true⟩ regions (some 0) regionTransitions 512 = some (.ok table) ∧
      IsInitial (top regions 0) s₀ ∧ Flattened (top regions 0) regionTransitions s₀ table) ∨
      ∃ e, beforeEndOfElaboration ⟨true, true⟩ regions (some 0) regionTransitions 512 = some (.error e) ∧
        Rejected (top regions 0) regionTransitions e := by
  refine flatten_preserves ⟨true, true⟩ regions 0 regionTransitions 512 regions_child (by decide) (fun tr htr => ?_)
    (by decide)
  simp only [regionTransitions, List.mem_cons, List.not_mem_nil, or_false] at htr
  rcases htr with rfl | rfl | rfl <;> exact ⟨by decide, by decide, by unfold Below; decide⟩

end FiringFSM

end SysteMoC
