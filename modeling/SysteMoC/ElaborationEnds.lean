import SysteMoC.ElaborationSound

/-!
# How elaboration ends

In a model whose references stay inside the tree and whose codes fit, elaboration
completes or reports a modeling error, unless junction states lead back to
themselves.
-/

namespace SysteMoC

namespace FsmModel

open Fuel FiringFSM StateTree

variable {R : Type} {m : FsmModel R} {b : Build} {t u : StateTree} {p : StatePath} {src : StatePath}
  {conds : List (StatePath × Bool)} {d : BaseState m.J m.M} {i : Fin m.n} {etl : List (ExpandedTransition R)}

def BaseState.In (t : StateTree) : BaseState m.J m.M → Prop
  | .state q => q ≠ [] ∧ (t.sub q).isSome
  | _ => True

/-- All states that transitions and multi-states refer to are in the tree. -/
structure Closed (m : FsmModel R) (t : StateTree) : Prop where
  ptl : ∀ p, ∀ pt ∈ m.ptl p, BaseState.In t pt.destState
  junction : ∀ j, ∀ pt ∈ m.junction j, BaseState.In t pt.destState
  multi : ∀ k, ∀ pt ∈ (m.multi k).ptl, BaseState.In t pt.destState
  states : ∀ k, t.Below (m.multi k).states
  condStates : ∀ k, ∀ c ∈ (m.multi k).condStates, c.1 ≠ [] ∧ (t.sub c.1).isSome

/-- The codes are wide enough and decide which state contains which. -/
structure Regular (m : FsmModel R) (t : StateTree) : Prop where
  closed : m.Closed t
  narrow : ∀ q, (t.sub q).isSome → t.bits q < 64
  decides : t.DecidesAncestors

/-! ## Runtime states -/

section
variable {mk : Finset StatePath} {s : ProdState} {tr : ExpandedTransition R}

theorem getInitialState_ne_assertion (hp : t.sub p = some u)
    (hinit : ∀ q n init c, p <:+ q → t.sub q = some (.xor n init c) → init.isSome) :
    u.getInitialState mk p ≠ .error .assertion := by
  induction u generalizing p with
  | firing =>
    intro h
    cases h
  | xor n init c ih =>
    rw [getInitialState]
    cases hm : markedChild mk p (List.finRange n) none with
    | error e =>
      rw [(markedChild_error (List.nodup_finRange n) hm).1]
      intro h
      cases h
    | ok i =>
      simp only [bind, Except.bind]
      cases hor : i.or init with
      | some i => exact ih _ (sub_xor hp (Fin.isLt _)) fun q n' init' c' hq => hinit q n' init' c' ((List.suffix_cons _ p).trans hq)
      | none =>
        have hsome := hinit p n init c (List.suffix_refl p) hp
        rw [(Option.or_eq_none_iff.mp hor).2] at hsome
        cases hsome
  | and n c ih =>
    rw [getInitialState]
    have hloop : ∀ (L : List (Fin n)) (s₀ : ProdState),
        L.foldlM (fun s i => do return s ∪ (← (c i).getInitialState mk (i.val :: p))) s₀ ≠ .error .assertion := by
      intro L
      induction L with
      | nil =>
        intro _ h
        cases h
      | cons i L ihL =>
        intro s₀
        rw [List.foldlM_cons]
        cases hi : (c i).getInitialState mk (i.val :: p) with
        | error e =>
          intro h
          cases h
          exact ih i (sub_and hp i.isLt) (fun q n' init' c' hq => hinit q n' init' c' ((List.suffix_cons _ p).trans hq)) hi
        | ok s₁ => exact ihL _
    exact hloop _ ∅

theorem target_ne_assertion (h : t.DecidesAncestors) (ht : t ≠ .firing)
    (hinit : ∀ q n init c, t.sub q = some (.xor n init c) → init.isSome) (hs : Leaves t s) (hw : WellFormed t tr) :
    target b t tr s ≠ .error .assertion := by
  obtain ⟨x, hscope, hx, htop⟩ := getTopState_eq h hw.dest hw.src.2 (fun hn => absurd hn hw.src.1) true
  rw [target]
  rcases htop with ⟨htop, _⟩ | ⟨htop, _⟩
  · obtain ⟨u, hu⟩ := Option.isSome_iff_exists.mp (sub_of_suffix hscope.src hw.src.2)
    rw [htop]
    simp only [Except.bind, bind, hu]
    cases hd : u.getInitialState (markStates tr.dest) x with
    | error e =>
      intro he
      cases he
      exact getInitialState_ne_assertion hu (fun q n init c _ => hinit q n init c) hd
    | ok d =>
      have hdisj : Disjoint d (s.filter fun l => t.isAncestor x l = false) := by
        rw [Finset.disjoint_left]
        intro l hl hrest
        obtain ⟨hmem, hanc⟩ := Finset.mem_filter.mp hrest
        have := (isAncestor_iff h (by rw [hu]; rfl) (by rw [hs l hmem]; rfl) (hs.ne_nil ht hmem) hx).mpr
          (getInitialState_leaves hu hd l hl).2
        rw [hanc] at this
        cases this
      simp only [Build.require, b.assert_of hdisj]
      intro h
      cases h
  · rw [htop]
    intro h
    cases h

theorem transitionsOf_ne_assertion (h : t.DecidesAncestors) (ht : t ≠ .firing)
    (hinit : ∀ q n init c, t.sub q = some (.xor n init c) → init.isSome) (hs : Leaves t s)
    (hw : ∀ tr ∈ etl, WellFormed t tr) : transitionsOf b t s etl ≠ .error .assertion := by
  induction etl with
  | nil =>
    intro h
    cases h
  | cons tr etl ih =>
    have hrest := ih fun tr' htr' => hw tr' (List.mem_cons_of_mem tr htr')
    rw [transitionsOf]
    split
    · cases hd : target b t tr s with
      | error e =>
        intro he
        cases he
        exact target_ne_assertion h ht hinit hs (hw tr List.mem_cons_self) hd
      | ok d =>
        cases hts : transitionsOf b t s etl with
        | error e =>
          intro he
          cases he
          exact hrest hts
        | ok ts =>
          intro h
          cases h
    · exact hrest

end

variable [JoinRules R]

/-! ## The expanded transitions -/

theorem forall_expandTransition (hc : m.Closed t) {P : ExpandedTransition R → Prop}
    (hstate : ∀ acc q, q ≠ [] → (t.sub q).isSome → P ⟨src, conds, acc, [q]⟩)
    (hmulti : ∀ acc k, P ⟨src, conds, acc, (m.multi k).states⟩) :
    ∀ (n : Nat) (acc : R) (d : BaseState m.J m.M) (etl : List (ExpandedTransition R)), BaseState.In t d →
      m.expandTransition src conds n acc d = some (.ok etl) → ∀ tr ∈ etl, P tr := by
  intro n
  induction n with
  | zero =>
    intro acc d etl hd h
    cases d with
    | state q =>
      cases h
      simpa using hstate acc q hd.1 hd.2
    | multi k =>
      simp only [expandTransition] at h
      split at h
      · cases h
      · split at h
        · cases h
        · cases h
          simpa using hmulti acc k
    | junction j => cases h
  | succ n ih =>
    intro acc d etl hd h
    cases d with
    | state q =>
      cases h
      simpa using hstate acc q hd.1 hd.2
    | multi k =>
      simp only [expandTransition] at h
      split at h
      · cases h
      · split at h
        · cases h
        · cases h
          simpa using hmulti acc k
    | junction j =>
      simp only [expandTransition] at h
      split at h
      · cases h
      · obtain ⟨etls, hall, rfl⟩ := flatMapM_ok h
        intro tr htr
        obtain ⟨etl, hetl, htr⟩ := List.mem_flatten.mp htr
        obtain ⟨pt, hpt, h⟩ := (Pointwise.forall₂_mem hall).2 etl hetl
        exact ih _ pt.destState etl (hc.junction j pt hpt) h tr htr

theorem wellFormed_expandAll (hc : m.Closed t) {ptl : List (PartialTransition R m.J m.M)}
    (hptl : ∀ pt ∈ ptl, BaseState.In t pt.destState) (hsrc : src ≠ [] ∧ (t.sub src).isSome)
    (hconds : ∀ c ∈ conds, c.1 ≠ [] ∧ (t.sub c.1).isSome) {fuel : Nat} (h : m.expandAll src conds ptl fuel = some (.ok etl)) :
    ∀ tr ∈ etl, WellFormed t tr ∧ tr.src = src ∧ tr.conds = conds := by
  obtain ⟨etls, hall, rfl⟩ := flatMapM_ok h
  intro tr htr
  obtain ⟨etl, hetl, htr⟩ := List.mem_flatten.mp htr
  obtain ⟨pt, hpt, h⟩ := (Pointwise.forall₂_mem hall).2 etl hetl
  refine forall_expandTransition (P := fun tr => WellFormed t tr ∧ tr.src = src ∧ tr.conds = conds) hc
      (fun acc q hne hq => ?_) (fun acc k => ?_)
    fuel pt.rule pt.destState etl (hptl pt hpt) h tr htr
  · refine ⟨⟨hsrc, hconds, fun d hd => ?_⟩, rfl, rfl⟩
    rw [List.mem_singleton.mp hd]
    exact ⟨hne, hq⟩
  · exact ⟨⟨hsrc, hconds, hc.states k⟩, rfl, rfl⟩

theorem wellFormed_own (hc : m.Closed t) {fuel : Nat} (hp : (t.sub p).isSome)
    (h : m.expandAll p [] (m.ptlAt p) fuel = some (.ok etl)) :
    ∀ tr ∈ etl, WellFormed t tr ∧ tr.src = p ∧ tr.conds = [] := by
  by_cases hnil : p = []
  · rw [ptlAt, if_pos hnil] at h
    cases h
    exact fun _ htr => (List.not_mem_nil htr).elim
  · rw [ptlAt, if_neg hnil] at h
    exact wellFormed_expandAll hc (hc.ptl p) ⟨hnil, hp⟩ (fun _ hc => (List.not_mem_nil hc).elim) h

theorem finaliseState_ok {n bits fuel : Nat} {child : Fin n → Fuel.Result FsmError (List (ExpandedTransition R))}
    (h : m.finaliseState b n p bits fuel child = some (.ok etl)) : b.require (n = 0 ∨ bits + flog2c n < 64) = .ok () ∧
      ∃ etls own, List.Forall₂ (fun i etl => child i = some (.ok etl)) (List.finRange n) etls ∧
        m.expandAll p [] (m.ptlAt p) fuel = some (.ok own) ∧ etl = etls.flatten ++ own := by
  obtain ⟨_, hcheck, h⟩ := bind_ok h
  obtain ⟨l, hl, h⟩ := bind_ok h
  obtain ⟨own, hown, h⟩ := bind_ok h
  obtain ⟨etls, hall, rfl⟩ := flatMapM_ok hl
  cases h
  exact ⟨Option.some.inj hcheck, etls, own, hall, hown, rfl⟩

theorem wellFormed_finaliseState (hc : m.Closed t) {n bits fuel : Nat}
    {child : Fin n → Fuel.Result FsmError (List (ExpandedTransition R))} (hp : (t.sub p).isSome)
    (ih : ∀ i etl, child i = some (.ok etl) → ∀ tr ∈ etl, WellFormed t tr ∧ i.val :: p <:+ tr.src ∧ tr.conds = [])
    (h : m.finaliseState b n p bits fuel child = some (.ok etl)) :
    ∀ tr ∈ etl, WellFormed t tr ∧ p <:+ tr.src ∧ tr.conds = [] := by
  obtain ⟨_, etls, own, hall, hown, rfl⟩ := finaliseState_ok h
  intro tr htr
  rcases List.mem_append.mp htr with htr | htr
  · obtain ⟨etl, hetl, htr⟩ := List.mem_flatten.mp htr
    obtain ⟨i, _, hi⟩ := (Pointwise.forall₂_mem hall).2 etl hetl
    obtain ⟨hw, hsrc, hconds⟩ := ih i etl hi tr htr
    exact ⟨hw, (List.suffix_cons i.val p).trans hsrc, hconds⟩
  · obtain ⟨hw, hsrc, hconds⟩ := wellFormed_own hc hp hown tr htr
    exact ⟨hw, hsrc ▸ List.suffix_refl p, hconds⟩

theorem wellFormed_finalise (hc : m.Closed t) {fuel bits : Nat} (hp : t.sub p = some u)
    (h : m.finalise b u p bits fuel = some (.ok etl)) : ∀ tr ∈ etl, WellFormed t tr ∧ p <:+ tr.src ∧ tr.conds = [] := by
  induction u generalizing p bits etl with
  | firing => exact wellFormed_finaliseState hc (by rw [hp]; rfl) (fun i => i.elim0) h
  | xor n init c ih =>
    rw [finalise] at h
    split at h
    · cases h
    · exact wellFormed_finaliseState hc (by rw [hp]; rfl) (fun i etl hi => ih i (sub_xor hp i.isLt) hi) h
  | and n c ih =>
    rw [finalise] at h
    exact wellFormed_finaliseState hc (by rw [hp]; rfl) (fun i etl hi => ih i (sub_and hp i.isLt) hi) h

/-! ## Faults of the expansion -/

theorem expandTransition_ne_assertion (n : Nat) : ∀ (acc : R) (d : BaseState m.J m.M),
    m.expandTransition src conds n acc d ≠ some (.error .assertion) := by
  induction n with
  | zero =>
    intro acc d
    cases d with
    | state q =>
      intro h
      cases h
    | multi k =>
      simp only [expandTransition]
      split
      · intro h
        cases h
      · split
        · intro h
          cases h
        · intro h
          cases h
    | junction j =>
      intro h
      cases h
  | succ n ih =>
    intro acc d
    cases d with
    | state q =>
      intro h
      cases h
    | multi k =>
      simp only [expandTransition]
      split
      · intro h
        cases h
      · split
        · intro h
          cases h
        · intro h
          cases h
    | junction j =>
      simp only [expandTransition]
      split
      · intro h
        cases h
      · intro h
        obtain ⟨pt, _, h⟩ := flatMapM_error h
        exact ih _ pt.destState h

theorem expandAll_ne_assertion {ptl : List (PartialTransition R m.J m.M)} {fuel : Nat} :
    m.expandAll src conds ptl fuel ≠ some (.error .assertion) := by
  intro h
  obtain ⟨pt, _, h⟩ := flatMapM_error h
  exact expandTransition_ne_assertion fuel pt.rule pt.destState h

theorem finaliseMulti_ne_assertion {k : Fin m.M} {fuel : Nat} : m.finaliseMulti k fuel ≠ some (.error .assertion) := by
  rw [finaliseMulti]
  split
  · intro h
    cases h
  · split
    · exact expandAll_ne_assertion
    · intro h
      cases h

theorem finaliseState_ne_assertion {n bits fuel : Nat} {child : Fin n → Fuel.Result FsmError (List (ExpandedTransition R))}
    (hbits : n = 0 ∨ bits + flog2c n < 64) (ih : ∀ i, child i ≠ some (.error .assertion)) :
    m.finaliseState b n p bits fuel child ≠ some (.error .assertion) := by
  intro h
  rcases bind_error h with h | ⟨_, _, h⟩
  · rw [Build.require, b.assert_of hbits] at h
    cases h
  · rcases bind_error h with h | ⟨etl, _, h⟩
    · obtain ⟨i, _, h⟩ := flatMapM_error h
      exact ih i h
    · rcases bind_error h with h | ⟨_, _, h⟩
      · exact expandAll_ne_assertion h
      · cases h

theorem finalise_ne_assertion (hnarrow : ∀ q, (t.sub q).isSome → t.bits q < 64) {fuel : Nat} (hp : t.sub p = some u) :
    m.finalise b u p (t.bits p) fuel ≠ some (.error .assertion) := by
  have hbits : ∀ {u : StateTree} {p : StatePath} (i : Nat), t.sub p = some u →
      t.bits (i :: p) = t.bits p + flog2c u.numChildren := by
    intro u p i hp
    rw [bits, codeBits_cons hp]
  have hwide : ∀ {n : Nat} {p : StatePath}, (∀ i < n, (t.sub (i :: p)).isSome) →
      (∀ i < n, t.bits (i :: p) = t.bits p + flog2c n) → n = 0 ∨ t.bits p + flog2c n < 64 := by
    intro n p hsub heq
    refine (Nat.eq_zero_or_pos n).imp_right fun hn => ?_
    rw [← heq 0 hn]
    exact hnarrow _ (hsub 0 hn)
  induction u generalizing p with
  | firing => exact finaliseState_ne_assertion (.inl rfl) fun i => i.elim0
  | xor n init c ih =>
    rw [finalise]
    split
    · intro h
      cases h
    · refine finaliseState_ne_assertion (hwide (fun i hi => ?_) fun i _ => hbits i hp) fun i => ?_
      · rw [sub_xor hp hi]
        rfl
      · rw [show t.bits p + flog2c n = t.bits (i.val :: p) from (hbits i.val hp).symm]
        exact ih i (sub_xor hp i.isLt)
  | and n c ih =>
    rw [finalise]
    refine finaliseState_ne_assertion (hwide (fun i hi => ?_) fun i _ => hbits i hp) fun i => ?_
    · rw [sub_and hp hi]
      rfl
    · rw [show t.bits p + flog2c n = t.bits (i.val :: p) from (hbits i.val hp).symm]
      exact ih i (sub_and hp i.isLt)

theorem init_of_finalise {bits fuel : Nat} (hp : t.sub p = some u) (h : m.finalise b u p bits fuel = some (.ok etl)) :
    ∀ q n init c, p <:+ q → t.sub q = some (.xor n init c) → init.isSome := by
  induction u generalizing p bits etl with
  | firing =>
    intro q n init c hpq hq
    rw [eq_of_leaf_suffix hp hpq (by rw [hq]; rfl), hp] at hq
    cases hq
  | xor n init c ih =>
    rw [finalise] at h
    split at h
    · cases h
    · obtain ⟨_, etls, own, hall, _, _⟩ := finaliseState_ok h
      intro q n' init' c' hpq hq
      rcases suffix_child hpq with rfl | ⟨i, hi⟩
      · rw [hp, Option.some.injEq] at hq
        cases hq
        simpa [Option.isSome_iff_ne_none] using ‹¬init.isNone = true›
      · obtain ⟨v, hv, hlt⟩ := sub_cons (sub_of_suffix hi (by rw [hq]; rfl))
        rw [hp, Option.some.injEq] at hv
        subst hv
        obtain ⟨etl', _, hchild⟩ := (Pointwise.forall₂_mem hall).1 ⟨i, hlt⟩ (List.mem_finRange _)
        exact ih ⟨i, hlt⟩ (sub_xor hp hlt) hchild q n' init' c' hi hq
  | and n c ih =>
    rw [finalise] at h
    obtain ⟨_, etls, own, hall, _, _⟩ := finaliseState_ok h
    intro q n' init' c' hpq hq
    rcases suffix_child hpq with rfl | ⟨i, hi⟩
    · rw [hp] at hq
      cases hq
    · obtain ⟨v, hv, hlt⟩ := sub_cons (sub_of_suffix hi (by rw [hq]; rfl))
      rw [hp, Option.some.injEq] at hv
      subst hv
      obtain ⟨etl', _, hchild⟩ := (Pointwise.forall₂_mem hall).1 ⟨i, hlt⟩ (List.mem_finRange _)
      exact ih ⟨i, hlt⟩ (sub_and hp hlt) hchild q n' init' c' hi hq

theorem wellFormed_expandedTransitions (hc : m.Closed (top m.states i)) {fuel : Nat}
    (h : m.expandedTransitions b i fuel = some (.ok etl)) : ∀ tr ∈ etl, WellFormed (top m.states i) tr := by
  obtain ⟨multis, hmultis, h⟩ := bind_ok h
  obtain ⟨own, hown, h⟩ := bind_ok h
  cases h
  intro tr htr
  rcases List.mem_append.mp htr with htr | htr
  · obtain ⟨etls, hall, rfl⟩ := flatMapM_ok hmultis
    obtain ⟨etl, hetl, htr⟩ := List.mem_flatten.mp htr
    obtain ⟨k, _, hk⟩ := (Pointwise.forall₂_mem hall).2 etl hetl
    rw [finaliseMulti] at hk
    split at hk
    · cases hk
      cases htr
    · split at hk
      · rename_i src hsrc
        have hbelow := hc.states k src (by rw [hsrc]; exact List.mem_singleton_self src)
        exact (wellFormed_expandAll hc (hc.multi k) hbelow (hc.condStates k) hk tr htr).1
      · cases hk
  · exact (wellFormed_finalise hc (t := top m.states i) rfl hown tr htr).1

theorem expandedTransitions_ne_assertion (hnarrow : ∀ q, ((top m.states i).sub q).isSome → (top m.states i).bits q < 64)
    {fuel : Nat} : m.expandedTransitions b i fuel ≠ some (.error .assertion) := by
  intro h
  rcases bind_error h with h | ⟨_, _, h⟩
  · obtain ⟨k, _, h⟩ := flatMapM_error h
    exact finaliseMulti_ne_assertion h
  · rcases bind_error h with h | ⟨_, _, h⟩
    · exact finalise_ne_assertion hnarrow (t := top m.states i) (p := []) rfl h
    · cases h

theorem init_of_expandedTransitions {fuel : Nat} (h : m.expandedTransitions b i fuel = some (.ok etl)) :
    ∀ q n init c, (top m.states i).sub q = some (.xor n init c) → init.isSome := by
  obtain ⟨multis, _, h⟩ := bind_ok h
  obtain ⟨own, hown, _⟩ := bind_ok h
  exact fun q n init c hq => init_of_finalise (t := top m.states i) rfl hown q n init c List.nil_suffix hq

/-! ## Elaboration -/

/-- A regular model completes or has a modeling error. -/
theorem beforeEndOfElaboration_ne_assertion (hi : m.hsinit = some i) (h : m.Regular (top m.states i)) {fuel : Nat} :
    m.beforeEndOfElaboration b fuel ≠ some (.error .assertion) := by
  rw [beforeEndOfElaboration_eq hi]
  intro hrun
  rcases bind_error hrun with hrun | ⟨etl, hetl, hrun⟩
  · exact expandedTransitions_ne_assertion h.narrow hrun
  · have hinit := init_of_expandedTransitions hetl
    rcases bind_error hrun with hrun | ⟨psinit, hps, hrun⟩
    · exact getInitialState_ne_assertion (t := top m.states i) rfl (fun q n init c _ => hinit q n init c) (Option.some.inj hrun)
    · have hleaves : Leaves (top m.states i) psinit := fun l hl =>
        (getInitialState_leaves (t := top m.states i) rfl (Option.some.inj hps) l hl).1
      obtain ⟨r, hr, herr⟩ := settles_run (b := b) hleaves etl
      obtain ⟨s, hs, he⟩ := herr .assertion (hr.eq_of_some mono_run hrun).symm
      exact transitionsOf_ne_assertion h.decides (by simp [top]) hinit hs (wellFormed_expandedTransitions h.closed hetl) he

/-- Elaboration completes or raises a `ModelingError`. -/
def Ends (m : FsmModel R) (b : Build) : Prop :=
  ∃ n r, (∀ fuel ≥ n, m.beforeEndOfElaboration b fuel = some r) ∧ r ≠ .error .assertion

theorem not_stuck_of_ends (h : m.Ends b) (hi : m.hsinit = some i) : ¬ Stuck (m.visits b i) := by
  intro hstuck
  obtain ⟨n, r, hr, _⟩ := h
  exact Settles.not_never ⟨n, hr⟩ ((never_beforeEndOfElaboration hi).mpr hstuck)

theorem ends_of_not_stuck (hreg : ∀ i, m.hsinit = some i → m.Regular (top m.states i))
    (h : ∀ i, m.hsinit = some i → ¬ Stuck (m.visits b i)) : m.Ends b := by
  rcases never_or_settles (mono_beforeEndOfElaboration (m := m) (b := b)) with hnever | ⟨r, n, hr⟩
  · cases hi : m.hsinit with
    | none =>
      have := hnever 0
      rw [beforeEndOfElaboration, hi] at this
      cases this
    | some i => exact absurd ((never_beforeEndOfElaboration hi).mp hnever) (h i hi)
  · refine ⟨n, r, hr, fun hra => ?_⟩
    have hrun := hr n (Nat.le_refl n)
    rw [hra] at hrun
    cases hi : m.hsinit with
    | none =>
      rw [beforeEndOfElaboration, hi] at hrun
      cases hrun
    | some i => exact beforeEndOfElaboration_ne_assertion hi (hreg i hi) hrun

def throughJunction : FsmModel (FiringRule Unit Unit Unit Unit) where
  n := 1
  states _ := .firing
  hsinit := some ⟨0, Nat.one_pos⟩
  J := 1
  M := 0
  ptl _ := [⟨⟨.expr fun _ => true, []⟩, .junction ⟨0, Nat.one_pos⟩⟩]
  junction _ := [⟨⟨.expr fun _ => true, []⟩, .state [0]⟩]
  multi k := k.elim0

def selfJunction : FsmModel (FiringRule Unit Unit Unit Unit) where
  n := 1
  states _ := .firing
  hsinit := some ⟨0, Nat.one_pos⟩
  J := 1
  M := 0
  ptl _ := [⟨⟨.expr fun _ => true, []⟩, .junction ⟨0, Nat.one_pos⟩⟩]
  junction _ := [⟨⟨.expr fun _ => true, []⟩, .junction ⟨0, Nat.one_pos⟩⟩]
  multi k := k.elim0

theorem selfJunction_regular : selfJunction.Regular (top selfJunction.states (0 : Fin 1)) where
  closed := by
    refine ⟨fun p pt hpt => ?_, fun j pt hpt => ?_, fun k => k.elim0, fun k => k.elim0, fun k => k.elim0⟩
    · rw [List.mem_singleton.mp hpt]
      trivial
    · rw [List.mem_singleton.mp hpt]
      trivial
  narrow := by
    have hall : ∀ q ∈ (top selfJunction.states (0 : Fin 1)).states [],
        (top selfJunction.states (0 : Fin 1)).bits q < 64 := by decide
    exact fun q hq => hall q (mem_states_top.mpr hq)
  decides := by decide

/-- A state around a single one that has a transition to it, beside another state. -/
def onlyChild : FsmModel (FiringRule Unit Unit Unit Unit) where
  n := 2
  states i := if i.val = 0 then .xor 1 (some ⟨0, Nat.one_pos⟩) fun _ => .firing else .firing
  hsinit := some ⟨0, Nat.two_pos⟩
  J := 0
  M := 0
  ptl p := if p = [0, 0] then [⟨⟨.expr fun _ => true, []⟩, .state [0]⟩] else []
  junction j := j.elim0
  multi k := k.elim0

end FsmModel

end SysteMoC
