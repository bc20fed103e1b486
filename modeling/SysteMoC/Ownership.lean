import SysteMoC.StateHeap

/-!
# Ownership of states

Every state belongs to the FSM that lists it or the outermost state it is
contained in, and an FSM lives as long as there are pointers to its states.
-/

namespace SysteMoC

namespace StateHeap

variable {R H : Type} {h h' h₁ h₂ : StateHeap R H} {b : Build} {s t c d f x : Nat} {o : StateObject R} {P Q : Nat → Prop}

/-! ## The forest of states -/

structure Forest (h : StateHeap R H) : Prop where
  owner : ∀ s o, h.state s = some o → ∃ g, h.fsm o.fsm = some g ∧ (s ∈ g.states ↔ o.parent = none)
  listed : ∀ f g s, h.fsm f = some g → s ∈ g.states → ∃ o, h.state s = some o ∧ o.fsm = f
  child : ∀ s o c, h.state s = some o → (c ∈ o.c ↔ ∃ oc, h.state c = some oc ∧ oc.parent = some s)
  parent : ∀ c oc s, h.state c = some oc → oc.parent = some s → ∃ o, h.state s = some o ∧ o.fsm = oc.fsm
  nodup : ∀ s o, h.state s = some o → o.c.Nodup
  counted : ∀ f g, h.fsm f = some g → g.useCount = h.ptrs.countP (h.belongs f)
  held : ∀ s ∈ h.ptrs, h.Live s
  fresh : ∀ x, h.next ≤ x → h.state x = none ∧ h.fsm x = none
  layered : ∃ (depth : Nat → Nat) (height : Nat), ∀ c oc, h.state c = some oc → depth c < height ∧
    ∀ s, oc.parent = some s → depth s < depth c

def Together (h : StateHeap R H) (s d : Nat) : Prop :=
  ∃ o od, h.state s = some o ∧ h.state d = some od ∧ od.fsm = o.fsm


namespace Forest

theorem child_iff (hf : h.Forest) : h.Child s c ↔ ∃ oc, h.state c = some oc ∧ oc.parent = some s := by
  constructor
  · rintro ⟨o, ho, hc⟩
    exact (hf.child s o c ho).mp hc
  · rintro ⟨oc, hoc, hp⟩
    obtain ⟨o, ho, _⟩ := hf.parent c oc s hoc hp
    exact ⟨o, ho, (hf.child s o c ho).mpr ⟨oc, hoc, hp⟩⟩

theorem child_together (hf : h.Forest) (hc : h.Child s c) : h.Together s c := by
  obtain ⟨oc, hoc, hp⟩ := hf.child_iff.mp hc
  obtain ⟨o, ho, heq⟩ := hf.parent c oc s hoc hp
  exact ⟨o, oc, ho, hoc, heq.symm⟩

theorem below_together (hf : h.Forest) (hs : h.Live s) (hb : h.Below s x) : h.Together s x := by
  induction hb with
  | refl =>
    obtain ⟨o, ho⟩ := Option.isSome_iff_exists.mp hs
    exact ⟨o, o, ho, ho, rfl⟩
  | tail _ hc ih =>
    obtain ⟨o, oa, ho, hoa, heq⟩ := ih
    obtain ⟨oa', oc, hoa', hoc, heq'⟩ := hf.child_together hc
    rw [hoa, Option.some.injEq] at hoa'
    subst hoa'
    exact ⟨o, oc, ho, hoc, heq'.trans heq⟩

/-- Each state is listed itself or contained in a listed state. -/
theorem exists_root (hf : h.Forest) (hx : h.state x = some o) :
    ∃ g s, h.fsm o.fsm = some g ∧ s ∈ g.states ∧ h.Below s x := by
  obtain ⟨depth, height, hlayer⟩ := hf.layered
  induction hd : depth x using Nat.strong_induction_on generalizing x o with
  | _ n ih =>
    obtain ⟨g, hg, hlist⟩ := hf.owner x o hx
    cases hp : o.parent with
    | none => exact ⟨g, x, hg, hlist.mpr hp, .refl⟩
    | some p =>
      obtain ⟨op, hop, hfsm⟩ := hf.parent x o p hx hp
      obtain ⟨g', s, hg', hs, hb⟩ := ih (depth p) (hd ▸ (hlayer x o hx).2 p hp) hop rfl
      rw [hfsm] at hg'
      exact ⟨g', s, hg', hs, hb.tail (hf.child_iff.mpr ⟨o, hx, hp⟩)⟩

theorem below_listed_iff (hf : h.Forest) {g : FsmObject H} (hg : h.fsm f = some g) :
    (∃ s ∈ g.states, h.Below s x) ↔ ∃ o, h.state x = some o ∧ o.fsm = f := by
  constructor
  · rintro ⟨s, hs, hb⟩
    obtain ⟨os, hos, hfs⟩ := hf.listed f g s hg hs
    obtain ⟨os', o, hos', ho, heq⟩ := hf.below_together (by rw [Live, hos]; rfl) hb
    rw [hos, Option.some.injEq] at hos'
    subst hos'
    exact ⟨o, ho, heq.trans hfs⟩
  · rintro ⟨o, ho, rfl⟩
    obtain ⟨g', s, hg', hs, hb⟩ := hf.exists_root ho
    rw [hg, Option.some.injEq] at hg'
    subst hg'
    exact ⟨s, hs, hb⟩

/-- The states above one state lie above each other. -/
theorem below_linear (hf : h.Forest) (hs : h.Below s x) (ht : h.Below t x) : h.Below s t ∨ h.Below t s := by
  induction hs with
  | refl => exact .inr ht
  | @tail a x hsa hc ih =>
    rcases Relation.ReflTransGen.cases_tail ht with rfl | ⟨a', hta, hc'⟩
    · exact .inl (hsa.tail hc)
    · obtain ⟨oc, hoc, hp⟩ := hf.child_iff.mp hc
      obtain ⟨oc', hoc', hp'⟩ := hf.child_iff.mp hc'
      rw [hoc, Option.some.injEq] at hoc'
      subst hoc'
      rw [hp, Option.some.injEq] at hp'
      subst hp'
      exact ih hta

end Forest

/-! ## Patching the FSM pointers -/

/-- The states in `P` have `f` as FSM, the others are those of before. -/
structure Retagged (P : Nat → Prop) (f : Nat) (h h' : StateHeap R H) : Prop where
  inside : ∀ x, P x → h'.state x = (h.state x).map fun o => { o with fsm := f }
  outside : ∀ x, ¬ P x → h'.state x = h.state x
  next : h'.next = h.next
  ptrs : h'.ptrs = h.ptrs

namespace Retagged

theorem congr (hr : Retagged P f h h') (hpq : ∀ x, P x ↔ Q x) : Retagged Q f h h' where
  inside x hx := hr.inside x ((hpq x).mpr hx)
  outside x hx := hr.outside x fun hp => hx ((hpq x).mp hp)
  next := hr.next
  ptrs := hr.ptrs

theorem state_some (hr : Retagged P f h h') (hx : h.state x = some o) :
    ∃ g, h'.state x = some { o with fsm := g } ∧ (P x ∧ g = f ∨ ¬ P x ∧ g = o.fsm) := by
  by_cases hp : P x
  · exact ⟨f, by rw [hr.inside x hp, hx]; rfl, .inl ⟨hp, rfl⟩⟩
  · exact ⟨o.fsm, by rw [hr.outside x hp, hx], .inr ⟨hp, rfl⟩⟩

theorem putState (hr : Retagged P f h h') (hx : h'.state x = some o) :
    Retagged (fun y => P y ∨ y = x) f h (h'.putState x (some { o with fsm := f })) where
  inside y hy := by
    by_cases hyx : y = x
    · subst hyx
      rw [putState_state, Function.update_self]
      by_cases hp : P y
      · rw [hr.inside y hp] at hx
        obtain ⟨o', ho', rfl⟩ := Option.map_eq_some_iff.mp hx
        rw [ho']
        rfl
      · rw [← hr.outside y hp, hx]
        rfl
    · rw [putState_state, Function.update_of_ne hyx]
      exact hr.inside y (hy.resolve_right hyx)
  outside y hy := by
    simp only [not_or] at hy
    rw [putState_state, Function.update_of_ne hy.2]
    exact hr.outside y hy.1
  next := hr.next
  ptrs := hr.ptrs

end Retagged

theorem below_iff (hs : h.state s = some o) : h.Below s x ↔ x = s ∨ ∃ c ∈ o.c, h.Below c x := by
  constructor
  · intro hb
    rcases Relation.ReflTransGen.cases_head hb with rfl | ⟨c, ⟨o', ho', hc⟩, hb⟩
    · exact .inl rfl
    · rw [hs, Option.some.injEq] at ho'
      subst ho'
      exact .inr ⟨c, hc, hb⟩
  · rintro (rfl | ⟨c, hc, hb⟩)
    · exact .refl
    · exact .head ⟨o, hs, hc⟩ hb

section
variable {depth : Nat → Nat} {height : Nat}

/-- `setFiringFSM` reaches the states contained in `s`; the states in `P` may have
been patched before. -/
theorem setFiringFSM_eq (hf : h.Forest)
    (hlayer : ∀ c oc, h.state c = some oc → depth c < height ∧ ∀ s, oc.parent = some s → depth s < depth c) :
    ∀ fuel {s : Nat} {P : Nat → Prop} {h₁ : StateHeap R H}, Retagged P f h h₁ → h.Live s → height - depth s < fuel →
    ∃ h₂, setFiringFSM f fuel s h₁ = some h₂ ∧ Retagged (fun x => P x ∨ h.Below s x) f h h₂ ∧ h₂.fsm = h₁.fsm := by
  intro fuel
  induction fuel with
  | zero => exact fun _ _ hfuel => absurd hfuel (Nat.not_lt_zero _)
  | succ fuel ih =>
    intro s P h₁ hr hs hfuel
    obtain ⟨o, ho⟩ := Option.isSome_iff_exists.mp hs
    obtain ⟨g, ho₁, _⟩ := hr.state_some ho
    have hlt := (hlayer s o ho).1
    have hloop : ∀ (L : List Nat) {Q : Nat → Prop} {h₁ : StateHeap R H}, L ⊆ o.c → Retagged Q f h h₁ →
        ∃ h₂, L.foldlM (fun h c => setFiringFSM f fuel c h) h₁ = some h₂ ∧
          Retagged (fun x => Q x ∨ ∃ c ∈ L, h.Below c x) f h h₂ ∧ h₂.fsm = h₁.fsm := by
      intro L
      induction L with
      | nil => exact fun {_ h₁} _ hr => ⟨h₁, rfl, hr.congr fun x => by simp, rfl⟩
      | cons c L ihL =>
        intro Q h₁ hsub hr
        obtain ⟨oc, hoc, hp⟩ := hf.child_iff.mp ⟨o, ho, hsub List.mem_cons_self⟩
        obtain ⟨h₂, hset, hr₂, hfsm₂⟩ := ih hr (show h.Live c by rw [Live, hoc]; rfl) (by
          have := (hlayer c oc hoc).2 s hp
          omega)
        obtain ⟨h₃, hrest, hr₃, hfsm₃⟩ := ihL (fun y hy => hsub (List.mem_cons_of_mem c hy)) hr₂
        refine ⟨h₃, ?_, hr₃.congr fun x => ?_, hfsm₃.trans hfsm₂⟩
        · rw [List.foldlM_cons, hset]
          exact hrest
        · simp [or_assoc]
    obtain ⟨h₂, hset, hr₂, hfsm₂⟩ := hloop o.c (List.Subset.refl _) (hr.putState ho₁)
    refine ⟨h₂, ?_, hr₂.congr fun x => ?_, hfsm₂⟩
    · rw [setFiringFSM, ho₁]
      exact hset
    · rw [below_iff ho, or_assoc]

theorem moveStates_eq {fr fuel : Nat} (hf : h.Forest)
    (hlayer : ∀ c oc, h.state c = some oc → depth c < height ∧ ∀ s, oc.parent = some s → depth s < depth c)
    (hfuel : height < fuel) {L : List Nat} : ∀ {P : Nat → Prop} {h₁ : StateHeap R H} {g : FsmObject H}, Retagged P t h h₁ →
    h₁.fsm = Function.update h.fsm t (some g) → L.Nodup →
    (∀ s ∈ L, ¬ P s ∧ s ∉ g.states ∧ ∃ o, h.state s = some o ∧ o.fsm = fr ∧ o.parent = none) →
    ∃ h₂, moveStates b fuel t fr L h₁ = some h₂ ∧ Retagged (fun x => P x ∨ ∃ s ∈ L, h.Below s x) t h h₂ ∧
      h₂.fsm = Function.update h.fsm t (some { g with states := g.states ∪ L.toFinset }) := by
  induction L with
  | nil =>
    intro P h₁ g hr hfsm _ _
    exact ⟨h₁, rfl, hr.congr fun x => by simp, by simpa using hfsm⟩
  | cons s L ih =>
    intro P h₁ g hr hfsm hnodup hall
    obtain ⟨hP, hg, o, ho, hfr, hroot⟩ := hall s List.mem_cons_self
    rw [List.nodup_cons] at hnodup
    obtain ⟨h₂, hset, hr₂, hfsm₂⟩ := setFiringFSM_eq hf hlayer fuel hr (show h.Live s by rw [Live, ho]; rfl)
      (Nat.lt_of_le_of_lt (Nat.sub_le _ _) hfuel)
    have hg₂ : h₂.fsm t = some g := by rw [hfsm₂, hfsm, Function.update_self]
    have hr₂' : Retagged (fun x => P x ∨ h.Below s x) t h (h₂.putFsm t (some { g with states := insert s g.states })) :=
      ⟨hr₂.inside, hr₂.outside, hr₂.next, hr₂.ptrs⟩
    obtain ⟨h₃, hrest, hr₃, hfsm₃⟩ := ih hr₂' (g := { g with states := insert s g.states })
      (by rw [putFsm_fsm, hfsm₂, hfsm, Function.update_idem]) hnodup.2 (by
        intro s' hs'
        obtain ⟨hP', hg', o', ho', hfr', hroot'⟩ := hall s' (List.mem_cons_of_mem s hs')
        have hne : s' ≠ s := fun heq => hnodup.1 (heq ▸ hs')
        refine ⟨?_, ?_, o', ho', hfr', hroot'⟩
        · rintro (hp | hb)
          · exact hP' hp
          · -- a listed state is contained in no other one
            rcases Relation.ReflTransGen.cases_tail hb with heq | ⟨a, _, hc⟩
            · exact hne heq
            · obtain ⟨oc, hoc, hp⟩ := hf.child_iff.mp hc
              rw [ho', Option.some.injEq] at hoc
              subst hoc
              rw [hroot'] at hp
              cases hp
        · rw [Finset.mem_insert, not_or]
          exact ⟨hne, hg'⟩)
    refine ⟨h₃, ?_, hr₃.congr fun x => ?_, ?_⟩
    · obtain ⟨o₁, ho₁, ho₁'⟩ : ∃ o₁, h₁.state s = some o₁ ∧ o₁.fsm = fr := ⟨o, by rw [hr.outside s hP, ho], hfr⟩
      simp only [moveStates, ho₁, Option.bind_eq_bind, Option.bind_some, b.assert_of ho₁', hset, hg₂, b.assert_of hg]
      exact hrest
    · simp [or_assoc]
    · rw [hfsm₃]
      simp

end

/-- One FSM gets the states and the references of the other, which is gone. -/
def merged (h : StateHeap R H) (this fr : Nat) (g f : FsmObject H) : StateHeap R H where
  state x := (h.state x).map fun o => if o.fsm = fr then { o with fsm := this } else o
  fsm := Function.update (Function.update h.fsm this
    (some { g with states := g.states ∪ f.states, useCount := g.useCount + f.useCount })) fr none
  next := h.next
  ptrs := h.ptrs

theorem unify_self {fuel this : Nat} : h.unify b fuel this this = some h := by
  rw [unify, if_pos rfl]

theorem unify_eq {this fr : Nat} {g g' : FsmObject H} (hf : h.Forest) (hne : this ≠ fr) (hg : h.fsm this = some g)
    (hg' : h.fsm fr = some g') : ∃ n, ∀ fuel ≥ n, h.unify b fuel this fr = some (h.merged this fr g g') := by
  obtain ⟨depth, height, hlayer⟩ := hf.layered
  refine ⟨height + 1, fun fuel hfuel => ?_⟩
  have hlisted : ∀ s ∈ g'.states.sort (· ≤ ·), ¬ False ∧ s ∉ g.states ∧
      ∃ o, h.state s = some o ∧ o.fsm = fr ∧ o.parent = none := by
    intro s hs
    rw [Finset.mem_sort] at hs
    obtain ⟨o, ho, hfsm⟩ := hf.listed fr g' s hg' hs
    obtain ⟨g₁, hg₁, hiff⟩ := hf.owner s o ho
    rw [hfsm, hg', Option.some.injEq] at hg₁
    subst hg₁
    refine ⟨not_false, fun hs' => hne ?_, o, ho, hfsm, hiff.mp hs⟩
    obtain ⟨o', ho', hfsm'⟩ := hf.listed this g s hg hs'
    rw [ho, Option.some.injEq] at ho'
    rw [← hfsm', ← ho', hfsm]
  obtain ⟨h₂, hmove, hr, hfsm⟩ := moveStates_eq (b := b) (P := fun _ => False) hf hlayer hfuel
    (⟨fun _ hx => hx.elim, fun _ _ => rfl, rfl, rfl⟩ : Retagged _ this h h)
    (by rw [← hg, Function.update_eq_self]) (Finset.sort_nodup _ _) hlisted
  have hg₂ : h₂.fsm this = some { g with states := g.states ∪ g'.states } := by
    rw [hfsm, Function.update_self]
    simp
  have hstate : h₂.state = (h.merged this fr g g').state := by
    funext x
    have hiff : (∃ s ∈ g'.states.sort (· ≤ ·), h.Below s x) ↔ ∃ o, h.state x = some o ∧ o.fsm = fr := by
      simp only [Finset.mem_sort]
      exact hf.below_listed_iff hg'
    by_cases hx : ∃ o, h.state x = some o ∧ o.fsm = fr
    · rw [hr.inside x (.inr (hiff.mpr hx))]
      obtain ⟨o, ho, hfr⟩ := hx
      simp [merged, ho, hfr]
    · rw [hr.outside x (not_or.mpr ⟨not_false, fun hb => hx (hiff.mp hb)⟩)]
      cases ho : h.state x with
      | none => simp [merged, ho]
      | some o =>
        have hfr : o.fsm ≠ fr := fun heq => hx ⟨o, ho, heq⟩
        simp [merged, ho, hfr]
  rw [unify, if_neg hne, hg']
  simp only [Option.bind_eq_bind, Option.bind_some, hmove, hg₂, deleteFsm, putFsm_fsm, Function.update_self,
    Finset.sort_empty, List.foldlM_nil]
  rw [b.assert_of trivial]
  refine congrArg some (StateHeap.ext hstate ?_ hr.next hr.ptrs)
  simp only [putFsm_fsm, hfsm, merged, Function.update_idem]

/-! ## Deleting an FSM -/

structure Erased (P : Nat → Prop) (h h' : StateHeap R H) : Prop where
  inside : ∀ x, P x → h'.state x = none
  outside : ∀ x, ¬ P x → h'.state x = h.state x
  fsm : h'.fsm = h.fsm
  next : h'.next = h.next
  ptrs : h'.ptrs = h.ptrs

theorem Erased.congr (he : Erased P h h') (hpq : ∀ x, P x ↔ Q x) : Erased Q h h' where
  inside x hx := he.inside x ((hpq x).mpr hx)
  outside x hx := he.outside x fun hp => hx ((hpq x).mp hp)
  fsm := he.fsm
  next := he.next
  ptrs := he.ptrs

theorem Erased.putState (he : Erased P h h') : Erased (fun y => P y ∨ y = x) h (h'.putState x none) where
  inside y hy := by
    by_cases hyx : y = x
    · subst hyx
      rw [putState_state, Function.update_self]
    · rw [putState_state, Function.update_of_ne hyx]
      exact he.inside y (hy.resolve_right hyx)
  outside y hy := by
    simp only [not_or] at hy
    rw [putState_state, Function.update_of_ne hy.2]
    exact he.outside y hy.1
  fsm := he.fsm
  next := he.next
  ptrs := he.ptrs

section
variable {depth : Nat → Nat} {height : Nat}

theorem Forest.below_depth (hf : h.Forest)
    (hlayer : ∀ c oc, h.state c = some oc → depth c < height ∧ ∀ s, oc.parent = some s → depth s < depth c)
    (hb : h.Below s x) : depth s ≤ depth x := by
  induction hb with
  | refl => exact Nat.le_refl _
  | tail _ hc ih =>
    obtain ⟨oc, hoc, hp⟩ := hf.child_iff.mp hc
    exact Nat.le_of_lt (Nat.lt_of_le_of_lt ih ((hlayer _ oc hoc).2 _ hp))

/-- Nothing is contained in two listed states, or in two children of one state. -/
theorem Forest.siblings_disjoint (hf : h.Forest) {oc od : StateObject R} (hc : h.state c = some oc)
    (hd : h.state d = some od) (hp : oc.parent = od.parent) (hcx : h.Below c x) (hdx : h.Below d x) : c = d := by
  obtain ⟨depth, height, hlayer⟩ := hf.layered
  have hone : ∀ {c d : Nat} {oc od : StateObject R}, h.state c = some oc → h.state d = some od → oc.parent = od.parent →
      h.Below c d → c = d := by
    intro c d oc od hc hd hp hb
    rcases Relation.ReflTransGen.cases_tail hb with heq | ⟨a, hca, had⟩
    · exact heq.symm
    · obtain ⟨od', hod', hpa⟩ := hf.child_iff.mp had
      rw [hd, Option.some.injEq] at hod'
      subst hod'
      have hlt := (hlayer c oc hc).2 a (hp.trans hpa)
      exact absurd (hf.below_depth hlayer hca) (Nat.not_le_of_lt hlt)
  rcases hf.below_linear hcx hdx with hb | hb
  · exact hone hc hd hp hb
  · exact (hone hd hc hp.symm hb).symm

/-- `~StateImpl` deletes the states contained in `s`, each once. -/
theorem deleteState_eq (hf : h.Forest)
    (hlayer : ∀ c oc, h.state c = some oc → depth c < height ∧ ∀ s, oc.parent = some s → depth s < depth c) :
    ∀ fuel {s : Nat} {P : Nat → Prop} {h₁ : StateHeap R H}, Erased P h h₁ → (∀ x, h.Below s x → ¬ P x) → h.Live s →
    height - depth s < fuel →
    ∃ h₂, deleteState b fuel s h₁ = some h₂ ∧ Erased (fun x => P x ∨ h.Below s x) h h₂ := by
  intro fuel
  induction fuel with
  | zero => exact fun _ _ _ hfuel => absurd hfuel (Nat.not_lt_zero _)
  | succ fuel ih =>
    intro s P h₁ he hP hs hfuel
    obtain ⟨o, ho⟩ := Option.isSome_iff_exists.mp hs
    have hlt := (hlayer s o ho).1
    have hloop : ∀ (L : List Nat) {Q : Nat → Prop} {h₁ : StateHeap R H}, L ⊆ o.c → L.Nodup → Erased Q h h₁ →
        (∀ c ∈ L, ∀ x, h.Below c x → ¬ Q x) →
        ∃ h₂, L.foldlM (fun h c => do
            let oc ← h.state c
            b.assert (oc.fsm = o.fsm)
            deleteState b fuel c h) h₁ = some h₂ ∧ Erased (fun x => Q x ∨ ∃ c ∈ L, h.Below c x) h h₂ := by
      intro L
      induction L with
      | nil => exact fun {_ h₁} _ _ he _ => ⟨h₁, rfl, he.congr fun x => by simp⟩
      | cons c L ihL =>
        intro Q h₁ hsub hnodup he hQ
        rw [List.nodup_cons] at hnodup
        obtain ⟨oc, hoc, hp⟩ := hf.child_iff.mp ⟨o, ho, hsub List.mem_cons_self⟩
        obtain ⟨o', ho', hfsm⟩ := hf.parent c oc s hoc hp
        rw [ho, Option.some.injEq] at ho'
        subst ho'
        obtain ⟨h₂, hdel, he₂⟩ := ih he (hQ c List.mem_cons_self) (show h.Live c by rw [Live, hoc]; rfl) (by
          have := (hlayer c oc hoc).2 s hp
          omega)
        obtain ⟨h₃, hrest, he₃⟩ := ihL (fun y hy => hsub (List.mem_cons_of_mem c hy)) hnodup.2 he₂ (by
          rintro c' hc' x hb (hq | hb')
          · exact hQ c' (List.mem_cons_of_mem c hc') x hb hq
          · obtain ⟨oc', hoc', hp'⟩ := hf.child_iff.mp ⟨o, ho, hsub (List.mem_cons_of_mem c hc')⟩
            have := hf.siblings_disjoint hoc hoc' (hp.trans hp'.symm) hb' hb
            exact hnodup.1 (this ▸ hc'))
        refine ⟨h₃, ?_, he₃.congr fun x => by simp [or_assoc]⟩
        have hread : h₁.state c = some oc := by rw [he.outside c (hQ c List.mem_cons_self c .refl), hoc]
        rw [List.foldlM_cons, hread]
        simp only [Option.bind_eq_bind, Option.bind_some, b.assert_of hfsm.symm, hdel]
        exact hrest
    have hbelow : ∀ c ∈ o.c, ∀ x, h.Below c x → h.Below s x := fun c hc x hb => .head ⟨o, ho, hc⟩ hb
    obtain ⟨h₂, hdel, he₂⟩ := hloop o.c (List.Subset.refl _) (hf.nodup s o ho) he
      fun c hc x hb => hP x (hbelow c hc x hb)
    refine ⟨h₂.putState s none, ?_, he₂.putState.congr fun x => ?_⟩
    · have hread : h₁.state s = some o := by rw [he.outside s (hP s .refl), ho]
      rw [deleteState]
      exact Option.bind_eq_some_iff.mpr ⟨o, hread, Option.bind_eq_some_iff.mpr ⟨h₂, hdel, rfl⟩⟩
    · rw [below_iff ho, or_assoc, or_comm (a := x = s)]

end

def erased (h : StateHeap R H) (f : Nat) : StateHeap R H where
  state x := (h.state x).filter fun o => o.fsm ≠ f
  fsm := Function.update h.fsm f none
  next := h.next
  ptrs := h.ptrs

theorem deleteFsm_eq {g : FsmObject H} (hf : h.Forest) (hg : h.fsm f = some g) (hcount : g.useCount = 0) :
    ∃ n, ∀ fuel ≥ n, h.deleteFsm b fuel f = some (h.erased f) := by
  obtain ⟨depth, height, hlayer⟩ := hf.layered
  refine ⟨height + 1, fun fuel hfuel => ?_⟩
  have hloop : ∀ (L : List Nat) {P : Nat → Prop} {h₁ : StateHeap R H}, Erased P h h₁ → L.Nodup →
      (∀ s ∈ L, (∀ x, h.Below s x → ¬ P x) ∧ ∃ o, h.state s = some o ∧ o.fsm = f ∧ o.parent = none) →
      ∃ h₂, L.foldlM (fun h s => do
          let o ← h.state s
          b.assert (o.fsm = f)
          deleteState b fuel s h) h₁ = some h₂ ∧ Erased (fun x => P x ∨ ∃ s ∈ L, h.Below s x) h h₂ := by
    intro L
    induction L with
    | nil => exact fun {_ h₁} he _ _ => ⟨h₁, rfl, he.congr fun x => by simp⟩
    | cons s L ih =>
      intro P h₁ he hnodup hall
      rw [List.nodup_cons] at hnodup
      obtain ⟨hP, o, ho, hfsm, hroot⟩ := hall s List.mem_cons_self
      obtain ⟨h₂, hdel, he₂⟩ := deleteState_eq (b := b) hf hlayer fuel he hP (show h.Live s by rw [Live, ho]; rfl)
        (Nat.lt_of_le_of_lt (Nat.sub_le _ _) hfuel)
      obtain ⟨h₃, hrest, he₃⟩ := ih he₂ hnodup.2 (by
        intro s' hs'
        obtain ⟨hP', o', ho', hfsm', hroot'⟩ := hall s' (List.mem_cons_of_mem s hs')
        refine ⟨?_, o', ho', hfsm', hroot'⟩
        rintro x hb (hp | hb')
        · exact hP' x hb hp
        · have := hf.siblings_disjoint ho ho' (hroot.trans hroot'.symm) hb' hb
          exact hnodup.1 (this ▸ hs'))
      refine ⟨h₃, ?_, he₃.congr fun x => by simp [or_assoc]⟩
      have hread : h₁.state s = some o := by rw [he.outside s (hP s .refl), ho]
      rw [List.foldlM_cons, hread]
      simp only [Option.bind_eq_bind, Option.bind_some, b.assert_of hfsm, hdel]
      exact hrest
  obtain ⟨h₂, hdel, he⟩ := hloop (g.states.sort (· ≤ ·)) (P := fun _ => False)
    ⟨fun _ hx => hx.elim, fun _ _ => rfl, rfl, rfl, rfl⟩ (Finset.sort_nodup _ _) (by
      intro s hs
      rw [Finset.mem_sort] at hs
      obtain ⟨o, ho, hfsm⟩ := hf.listed f g s hg hs
      obtain ⟨g', hg', hiff⟩ := hf.owner s o ho
      rw [hfsm, hg, Option.some.injEq] at hg'
      subst hg'
      exact ⟨fun _ _ => not_false, o, ho, hfsm, hiff.mp hs⟩)
  have hstate : h₂.state = (h.erased f).state := by
    funext x
    have hiff : (∃ s ∈ g.states.sort (· ≤ ·), h.Below s x) ↔ ∃ o, h.state x = some o ∧ o.fsm = f := by
      simp only [Finset.mem_sort]
      exact hf.below_listed_iff hg
    by_cases hx : ∃ o, h.state x = some o ∧ o.fsm = f
    · rw [he.inside x (.inr (hiff.mpr hx))]
      obtain ⟨o, ho, hfsm⟩ := hx
      simp [erased, ho, hfsm, Option.filter]
    · rw [he.outside x (not_or.mpr ⟨not_false, fun hb => hx (hiff.mp hb)⟩)]
      cases ho : h.state x with
      | none => simp [erased, ho]
      | some o =>
        have hfsm : o.fsm ≠ f := fun heq => hx ⟨o, ho, heq⟩
        simp [erased, ho, hfsm, Option.filter]
  rw [deleteFsm]
  refine Option.bind_eq_some_iff.mpr ⟨g, hg, Option.bind_eq_some_iff.mpr ⟨(), b.assert_of hcount,
    Option.bind_eq_some_iff.mpr ⟨h₂, hdel, ?_⟩⟩⟩
  exact congrArg some (StateHeap.ext hstate (by rw [putFsm_fsm, he.fsm]; rfl) he.next he.ptrs)

/-! ## What the operations keep -/

/-- Changes besides containment, references and FSM pointers. -/
structure SameShape (h h' : StateHeap R H) : Prop where
  state : ∀ x, (h'.state x).map (fun o => (o.fsm, o.parent, o.c)) = (h.state x).map fun o => (o.fsm, o.parent, o.c)
  fsm : ∀ f, (h'.fsm f).map (fun g => (g.states, g.useCount)) = (h.fsm f).map fun g => (g.states, g.useCount)
  next : h'.next = h.next
  ptrs : h'.ptrs = h.ptrs

namespace SameShape

theorem symm (hsh : SameShape h h') : SameShape h' h where
  state x := (hsh.state x).symm
  fsm f := (hsh.fsm f).symm
  next := hsh.next.symm
  ptrs := hsh.ptrs.symm

theorem state_some (hsh : SameShape h h') (hx : h.state x = some o) :
    ∃ o', h'.state x = some o' ∧ o'.fsm = o.fsm ∧ o'.parent = o.parent ∧ o'.c = o.c := by
  have := hsh.state x
  rw [hx] at this
  obtain ⟨o', ho', heq⟩ := Option.map_eq_some_iff.mp this
  simp only [Prod.mk.injEq] at heq
  exact ⟨o', ho', heq⟩

theorem fsm_some {g : FsmObject H} (hsh : SameShape h h') (hg : h.fsm f = some g) :
    ∃ g', h'.fsm f = some g' ∧ g'.states = g.states ∧ g'.useCount = g.useCount := by
  have := hsh.fsm f
  rw [hg] at this
  obtain ⟨g', hg', heq⟩ := Option.map_eq_some_iff.mp this
  simp only [Prod.mk.injEq] at heq
  exact ⟨g', hg', heq⟩

theorem state_none (hsh : SameShape h h') : h'.state x = none ↔ h.state x = none := by
  have := congrArg Option.isNone (hsh.state x)
  rw [Option.isNone_map, Option.isNone_map] at this
  rw [← Option.isNone_iff_eq_none, this, Option.isNone_iff_eq_none]

theorem fsm_none (hsh : SameShape h h') : h'.fsm f = none ↔ h.fsm f = none := by
  have := congrArg Option.isNone (hsh.fsm f)
  rw [Option.isNone_map, Option.isNone_map] at this
  rw [← Option.isNone_iff_eq_none, this, Option.isNone_iff_eq_none]

theorem belongs (hsh : SameShape h h') : h'.belongs f x = h.belongs f x := by
  unfold StateHeap.belongs
  cases hx : h.state x with
  | none => rw [hsh.state_none.mpr hx]
  | some o =>
    obtain ⟨o', ho', hfsm, _⟩ := hsh.state_some hx
    rw [ho']
    simp [hfsm]

theorem together (hsh : SameShape h h') (ht : h.Together s d) : h'.Together s d := by
  obtain ⟨o, od, ho, hod, heq⟩ := ht
  obtain ⟨o', ho', hfsm, _⟩ := hsh.state_some ho
  obtain ⟨od', hod', hfsm', _⟩ := hsh.state_some hod
  exact ⟨o', od', ho', hod', by rw [hfsm', hfsm, heq]⟩

theorem forest (hsh : SameShape h h') (hf : h.Forest) : h'.Forest where
  owner s o ho := by
    obtain ⟨o₀, ho₀, hfsm, hp, _⟩ := hsh.symm.state_some ho
    obtain ⟨g₀, hg₀, hiff⟩ := hf.owner s o₀ ho₀
    obtain ⟨g, hg, hstates, _⟩ := hsh.fsm_some hg₀
    exact ⟨g, hfsm ▸ hg, by rw [hstates, hiff, hp]⟩
  listed f g s hg hs := by
    obtain ⟨g₀, hg₀, hstates, _⟩ := hsh.symm.fsm_some hg
    obtain ⟨o₀, ho₀, hfsm⟩ := hf.listed f g₀ s hg₀ (hstates ▸ hs)
    obtain ⟨o, ho, hfsm', _⟩ := hsh.state_some ho₀
    exact ⟨o, ho, hfsm'.trans hfsm⟩
  child s o c ho := by
    obtain ⟨o₀, ho₀, _, _, hc⟩ := hsh.symm.state_some ho
    rw [← hc, hf.child s o₀ c ho₀]
    constructor
    · rintro ⟨oc, hoc, hp⟩
      obtain ⟨oc', hoc', _, hp', _⟩ := hsh.state_some hoc
      exact ⟨oc', hoc', hp'.trans hp⟩
    · rintro ⟨oc, hoc, hp⟩
      obtain ⟨oc', hoc', _, hp', _⟩ := hsh.symm.state_some hoc
      exact ⟨oc', hoc', hp'.trans hp⟩
  parent c oc s hoc hp := by
    obtain ⟨oc₀, hoc₀, hfsm, hp₀, _⟩ := hsh.symm.state_some hoc
    obtain ⟨o₀, ho₀, heq⟩ := hf.parent c oc₀ s hoc₀ (hp₀.trans hp)
    obtain ⟨o, ho, hfsm', _⟩ := hsh.state_some ho₀
    exact ⟨o, ho, by rw [hfsm', heq, hfsm]⟩
  nodup s o ho := by
    obtain ⟨o₀, ho₀, _, _, hc⟩ := hsh.symm.state_some ho
    rw [← hc]
    exact hf.nodup s o₀ ho₀
  counted f g hg := by
    obtain ⟨g₀, hg₀, _, hcount⟩ := hsh.symm.fsm_some hg
    rw [← hcount, hf.counted f g₀ hg₀, hsh.ptrs]
    exact List.countP_congr fun x _ => by rw [hsh.belongs]
  held s hs := by
    rw [hsh.ptrs] at hs
    obtain ⟨o, ho⟩ := Option.isSome_iff_exists.mp (hf.held s hs)
    obtain ⟨o', ho', _⟩ := hsh.state_some ho
    rw [Live, ho']
    rfl
  fresh x hx := by
    rw [hsh.next] at hx
    exact ⟨hsh.state_none.mpr (hf.fresh x hx).1, hsh.fsm_none.mpr (hf.fresh x hx).2⟩
  layered := by
    obtain ⟨depth, height, hlayer⟩ := hf.layered
    refine ⟨depth, height, fun c oc hoc => ?_⟩
    obtain ⟨oc₀, hoc₀, _, hp, _⟩ := hsh.symm.state_some hoc
    rw [← hp]
    exact hlayer c oc₀ hoc₀

end SameShape

theorem countP_add {α : Type} {p q r : α → Bool} (hor : ∀ a, r a = (p a || q a)) (hdisj : ∀ a, ¬ (p a = true ∧ q a = true))
    (l : List α) : l.countP p + l.countP q = l.countP r := by
  induction l with
  | nil => rfl
  | cons a l ih =>
    simp only [List.countP_cons, hor a, ← ih]
    have := hdisj a
    cases hp : p a <;> cases hq : q a <;> simp_all <;> omega

section
variable {this fr : Nat} {g g' : FsmObject H}

theorem merged_state (hx : h.state x = some o) :
    (h.merged this fr g g').state x = some { o with fsm := if o.fsm = fr then this else o.fsm } := by
  simp only [merged, hx, Option.map_some]
  split <;> rfl

theorem of_merged_state {o' : StateObject R} (hx : (h.merged this fr g g').state x = some o') :
    ∃ o, h.state x = some o ∧ o' = { o with fsm := if o.fsm = fr then this else o.fsm } := by
  obtain ⟨o, ho, rfl⟩ := Option.map_eq_some_iff.mp hx
  refine ⟨o, ho, ?_⟩
  split <;> rfl

theorem merged_fsm : (h.merged this fr g g').fsm f = if f = fr then none else if f = this then
    some { g with states := g.states ∪ g'.states, useCount := g.useCount + g'.useCount } else h.fsm f := by
  simp only [merged, Function.update_apply]

theorem belongs_of_state (hx : h.state x = some o) : h.belongs f x = decide (o.fsm = f) := by
  rw [belongs, hx, Option.any_some]

theorem belongs_iff : h.belongs f x = true ↔ ∃ o, h.state x = some o ∧ o.fsm = f := by
  cases hx : h.state x with
  | none => simp [belongs, hx]
  | some o => simp [belongs_of_state hx]

theorem belongs_unique {f' : Nat} (hb : h.belongs f x = true) (hb' : h.belongs f' x = true) : f = f' := by
  obtain ⟨o, ho, rfl⟩ := belongs_iff.mp hb
  rw [belongs_of_state ho, decide_eq_true_eq] at hb'
  exact hb'

theorem merged_belongs (hne : this ≠ fr) :
    (h.merged this fr g g').belongs f x =
      if f = fr then false else if f = this then h.belongs this x || h.belongs fr x else h.belongs f x := by
  cases hx : h.state x with
  | none => simp [belongs, merged, hx]
  | some o =>
    rw [belongs_of_state (merged_state hx), belongs_of_state hx, belongs_of_state hx, belongs_of_state hx]
    by_cases hfr : o.fsm = fr
    · simp only [hfr, if_true]
      grind
    · simp only [hfr, if_false]
      grind

theorem Forest.merged (hf : h.Forest) (hne : this ≠ fr) (hg : h.fsm this = some g) (hg' : h.fsm fr = some g') :
    (h.merged this fr g g').Forest where
  owner s o' ho' := by
    obtain ⟨o, ho, rfl⟩ := of_merged_state ho'
    obtain ⟨go, hgo, hiff⟩ := hf.owner s o ho
    have hlist : ∀ f g, h.fsm f = some g → s ∈ g.states → f = o.fsm := by
      intro f g hg hs
      obtain ⟨o₁, ho₁, hfsm⟩ := hf.listed f g s hg hs
      rw [ho, Option.some.injEq] at ho₁
      rw [ho₁, hfsm]
    rw [merged_fsm]
    by_cases hfr : o.fsm = fr
    · rw [hfr, hg', Option.some.injEq] at hgo
      subst hgo
      refine ⟨_, by rw [if_pos hfr, if_neg hne, if_pos rfl], ?_⟩
      rw [Finset.mem_union, hiff]
      exact or_iff_right fun hs => hne ((hlist this g hg hs).trans hfr)
    · by_cases hthis : o.fsm = this
      · rw [hthis, hg, Option.some.injEq] at hgo
        subst hgo
        refine ⟨_, by rw [if_neg hfr, if_neg hfr, if_pos hthis], ?_⟩
        rw [Finset.mem_union, hiff]
        exact or_iff_left fun hs => hfr (hlist fr g' hg' hs).symm
      · exact ⟨go, by rw [if_neg hfr, if_neg hfr, if_neg hthis, hgo], hiff⟩
  listed f go s hgo hs := by
    rw [merged_fsm] at hgo
    split at hgo
    · cases hgo
    · rename_i hfr
      split at hgo
      · rename_i hthis
        cases hgo
        rcases Finset.mem_union.mp hs with hs | hs
        · obtain ⟨o, ho, hfsm⟩ := hf.listed this g s hg hs
          exact ⟨_, merged_state ho, by simp [hfsm, hne, hthis]⟩
        · obtain ⟨o, ho, hfsm⟩ := hf.listed fr g' s hg' hs
          exact ⟨_, merged_state ho, by simp [hfsm, hthis]⟩
      · obtain ⟨o, ho, hfsm⟩ := hf.listed f go s hgo hs
        exact ⟨_, merged_state ho, by simp [hfsm, hfr]⟩
  child s o' c ho' := by
    obtain ⟨o, ho, rfl⟩ := of_merged_state ho'
    rw [show ({ o with fsm := if o.fsm = fr then this else o.fsm } : StateObject R).c = o.c from rfl, hf.child s o c ho]
    constructor
    · rintro ⟨oc, hoc, hp⟩
      exact ⟨_, merged_state hoc, hp⟩
    · rintro ⟨oc', hoc', hp⟩
      obtain ⟨oc, hoc, rfl⟩ := of_merged_state hoc'
      exact ⟨oc, hoc, hp⟩
  parent c oc' s hoc' hp := by
    obtain ⟨oc, hoc, rfl⟩ := of_merged_state hoc'
    obtain ⟨o, ho, heq⟩ := hf.parent c oc s hoc hp
    exact ⟨_, merged_state ho, by simp only [heq]⟩
  nodup s o' ho' := by
    obtain ⟨o, ho, rfl⟩ := of_merged_state ho'
    exact hf.nodup s o ho
  counted f go hgo := by
    rw [merged_fsm] at hgo
    split at hgo
    · cases hgo
    · rename_i hfr
      have hbelongs : (h.merged this fr g g').ptrs.countP ((h.merged this fr g g').belongs f) =
          h.ptrs.countP fun x => if f = this then h.belongs this x || h.belongs fr x else h.belongs f x :=
        List.countP_congr fun x _ => by rw [merged_belongs hne, if_neg hfr]
      rw [hbelongs]
      split at hgo
      · rename_i hthis
        cases hgo
        rw [hf.counted this g hg, hf.counted fr g' hg']
        exact countP_add (fun x => by rw [if_pos hthis]) (fun x ⟨h₁, h₂⟩ => hne (belongs_unique h₁ h₂)) _
      · rename_i hthis
        rw [hf.counted f go hgo]
        exact List.countP_congr fun x _ => by rw [if_neg hthis]
  held s hs := by
    obtain ⟨o, ho⟩ := Option.isSome_iff_exists.mp (hf.held s hs)
    rw [Live, merged_state ho]
    rfl
  fresh x hx := by
    obtain ⟨hs, hfs⟩ := hf.fresh x hx
    refine ⟨by change (h.state x).map _ = none; rw [hs, Option.map_none], ?_⟩
    rw [merged_fsm]
    split
    · rfl
    · split
      · rename_i hthis
        rw [hthis, hg] at hfs
        cases hfs
      · exact hfs
  layered := by
    obtain ⟨depth, height, hlayer⟩ := hf.layered
    refine ⟨depth, height, fun c oc' hoc' => ?_⟩
    obtain ⟨oc, hoc, rfl⟩ := of_merged_state hoc'
    exact hlayer c oc hoc

end

end StateHeap

end SysteMoC
