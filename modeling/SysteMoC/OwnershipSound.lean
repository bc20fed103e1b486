import SysteMoC.Ownership

/-!
# Ownership is kept

Each operation on states keeps the forest, and all but the last release of an
FSM keep its states together.
-/

namespace SysteMoC

namespace StateHeap

variable {R H : Type} {h h' h₁ h₂ : StateHeap R H} {b : Build} {s t c d f x : Nat} {o os od : StateObject R} {g : FsmObject H}

/-! ## References -/

theorem Forest.recount (hf : h.Forest) (hstate : h'.state = h.state) (hnext : h'.next = h.next)
    (hfsm : ∀ f, (h'.fsm f).map FsmObject.states = (h.fsm f).map FsmObject.states)
    (hcount : ∀ f g, h'.fsm f = some g → g.useCount = h'.ptrs.countP (h'.belongs f))
    (hheld : ∀ s ∈ h'.ptrs, h.Live s) : h'.Forest where
  owner s o ho := by
    obtain ⟨g, hg, hiff⟩ := hf.owner s o (hstate ▸ ho)
    obtain ⟨g', hg', hstates⟩ := Option.map_eq_some_iff.mp ((hfsm o.fsm).trans (congrArg _ hg))
    exact ⟨g', hg', by rw [hstates, hiff]⟩
  listed f g s hg hs := by
    obtain ⟨g', hg', hstates⟩ := Option.map_eq_some_iff.mp ((hfsm f).symm.trans (congrArg _ hg))
    rw [hstate]
    exact hf.listed f g' s hg' (hstates ▸ hs)
  child := hstate ▸ hf.child
  parent := hstate ▸ hf.parent
  nodup := hstate ▸ hf.nodup
  counted := hcount
  held s hs := by
    rw [Live, hstate]
    exact hheld s hs
  fresh x hx := by
    rw [hnext] at hx
    refine ⟨hstate ▸ (hf.fresh x hx).1, ?_⟩
    have := hfsm x
    rwa [(hf.fresh x hx).2, Option.map_none, Option.map_eq_none_iff] at this
  layered := hstate ▸ hf.layered

theorem belongs_congr (hstate : h'.state = h.state) : h'.belongs f x = h.belongs f x := by
  rw [belongs, belongs, hstate]

theorem Forest.recount_fsm {g' : FsmObject H} {ptrs : List Nat} (hf : h.Forest) (hg : h.fsm f = some g)
    (hstates : g'.states = g.states) (hcount : g'.useCount = ptrs.countP (h.belongs f))
    (hother : ∀ f' ≠ f, ptrs.countP (h.belongs f') = h.ptrs.countP (h.belongs f')) (hheld : ∀ s ∈ ptrs, h.Live s) :
    ({ h.putFsm f (some g') with ptrs := ptrs } : StateHeap R H).Forest := by
  refine hf.recount rfl rfl (fun f' => ?_) (fun f' go hgo => ?_) hheld
  · by_cases heq : f' = f
    · simp [heq, hg, hstates]
    · simp [heq]
  · by_cases heq : f' = f
    · subst heq
      rw [putFsm_fsm, Function.update_self, Option.some.injEq] at hgo
      rw [← hgo]
      exact hcount
    · rw [putFsm_fsm, Function.update_of_ne heq] at hgo
      exact (hf.counted f' go hgo).trans (hother f' heq).symm

theorem belongs_self (hs : h.state s = some o) : h.belongs o.fsm s = true := belongs_iff.mpr ⟨o, hs, rfl⟩

theorem not_belongs (hs : h.state s = some o) (hne : f ≠ o.fsm) : ¬ h.belongs f s = true :=
  fun hb => hne (belongs_unique hb (belongs_self hs))

theorem Forest.acquired (hf : h.Forest) (hs : h.state s = some o) (hg : h.fsm o.fsm = some g) :
    ({ h.putFsm o.fsm (some { g with useCount := g.useCount + 1 }) with ptrs := s :: h.ptrs } : StateHeap R H).Forest := by
  refine hf.recount_fsm hg rfl ?_ (fun f' hne => ?_) (fun s' hs' => ?_)
  · rw [List.countP_cons_of_pos (belongs_self hs), ← hf.counted _ g hg]
  · rw [List.countP_cons_of_neg (not_belongs hs hne)]
  · rcases List.mem_cons.mp hs' with rfl | hs'
    · rw [Live, hs]
      rfl
    · exact hf.held s' hs'

theorem countP_erase (hs : s ∈ h.ptrs) (ho : h.state s = some o) (f : Nat) :
    h.ptrs.countP (h.belongs f) = (h.ptrs.erase s).countP (h.belongs f) + if f = o.fsm then 1 else 0 := by
  rw [(List.perm_cons_erase hs).countP_eq, List.countP_cons, belongs_of_state ho]
  by_cases heq : f = o.fsm
  · simp [heq]
  · simp [heq, Ne.symm heq]

theorem Forest.released (hf : h.Forest) (hs : s ∈ h.ptrs) (ho : h.state s = some o) (hg : h.fsm o.fsm = some g) :
    ({ h.putFsm o.fsm (some { g with useCount := g.useCount - 1 }) with ptrs := h.ptrs.erase s } : StateHeap R H).Forest := by
  refine hf.recount_fsm hg rfl ?_ (fun f' hne => ?_) (fun s' hs' => hf.held s' (List.mem_of_mem_erase hs'))
  · have := countP_erase hs ho o.fsm
    rw [if_pos rfl, ← hf.counted _ g hg] at this
    exact Nat.sub_eq_of_eq_add this
  · rw [countP_erase hs ho f', if_neg hne, Nat.add_zero]

theorem of_erased_state (hx : (h.erased f).state x = some o) : h.state x = some o ∧ o.fsm ≠ f := by
  simpa [erased, Option.filter_eq_some_iff] using hx

theorem erased_state (hx : h.state x = some o) (hne : o.fsm ≠ f) : (h.erased f).state x = some o := by
  simp [erased, hx, hne, Option.filter]

theorem Forest.erased (hf : h.Forest) (hnone : ∀ s ∈ h.ptrs, ¬ h.belongs f s = true) : (h.erased f).Forest where
  owner s o ho := by
    obtain ⟨ho, hne⟩ := of_erased_state ho
    obtain ⟨g, hg, hiff⟩ := hf.owner s o ho
    exact ⟨g, by simpa [StateHeap.erased, hne] using hg, hiff⟩
  listed f' g s hg hs := by
    by_cases heq : f' = f
    · simp [StateHeap.erased, heq] at hg
    · obtain ⟨o, ho, hfsm⟩ := hf.listed f' g s (by simpa [StateHeap.erased, heq] using hg) hs
      exact ⟨o, erased_state ho (hfsm ▸ heq), hfsm⟩
  child s o c ho := by
    obtain ⟨ho, hne⟩ := of_erased_state ho
    rw [hf.child s o c ho]
    constructor
    · rintro ⟨oc, hoc, hp⟩
      obtain ⟨o', ho', hfsm⟩ := hf.parent c oc s hoc hp
      rw [ho, Option.some.injEq] at ho'
      subst ho'
      exact ⟨oc, erased_state hoc (hfsm ▸ hne), hp⟩
    · rintro ⟨oc, hoc, hp⟩
      exact ⟨oc, (of_erased_state hoc).1, hp⟩
  parent c oc s hoc hp := by
    obtain ⟨hoc, hne⟩ := of_erased_state hoc
    obtain ⟨o, ho, hfsm⟩ := hf.parent c oc s hoc hp
    exact ⟨o, erased_state ho (hfsm ▸ hne), hfsm⟩
  nodup s o ho := hf.nodup s o (of_erased_state ho).1
  counted f' g hg := by
    by_cases heq : f' = f
    · simp [StateHeap.erased, heq] at hg
    · rw [hf.counted f' g (by simpa [StateHeap.erased, heq] using hg)]
      refine List.countP_congr fun x _ => ?_
      rw [belongs_iff, belongs_iff]
      constructor
      · rintro ⟨o, ho, hfsm⟩
        exact ⟨o, erased_state ho (hfsm ▸ heq), hfsm⟩
      · rintro ⟨o, ho, hfsm⟩
        exact ⟨o, (of_erased_state ho).1, hfsm⟩
  held s hs := by
    obtain ⟨o, ho⟩ := Option.isSome_iff_exists.mp (hf.held s hs)
    rw [Live, erased_state ho fun heq => hnone s hs (belongs_iff.mpr ⟨o, ho, heq⟩)]
    rfl
  fresh x hx := by
    obtain ⟨hs, hfs⟩ := hf.fresh x hx
    refine ⟨by simp [StateHeap.erased, hs], ?_⟩
    by_cases heq : x = f
    · simp [StateHeap.erased, heq]
    · simpa [StateHeap.erased, heq] using hfs
  layered := by
    obtain ⟨depth, height, hlayer⟩ := hf.layered
    exact ⟨depth, height, fun c oc hoc => hlayer c oc (of_erased_state hoc).1⟩

/-! ## New states -/

theorem created_state_eq {kind : StateKind} : (h.created kind).state =
    Function.update h.state (h.next + 1) (some ⟨kind, h.next, [], none, [], none, ∅, []⟩) := rfl

theorem created_fsm_eq {kind : StateKind} :
    (h.created kind).fsm = Function.update h.fsm h.next (some ⟨{h.next + 1}, 0, []⟩) := rfl

theorem Forest.state_lt (hf : h.Forest) (hx : h.state x = some o) : x < h.next := by
  by_contra hge
  rw [(hf.fresh x (Nat.le_of_not_lt hge)).1] at hx
  cases hx

theorem Forest.fsm_lt (hf : h.Forest) (hg : h.fsm f = some g) : f < h.next := by
  by_contra hge
  rw [(hf.fresh f (Nat.le_of_not_lt hge)).2] at hg
  cases hg

theorem Forest.created_state (hf : h.Forest) (kind : StateKind) (hx : h.state x = some o) :
    (h.created kind).state x = some o := by
  have := hf.state_lt hx
  rw [created_state_eq, Function.update_of_ne (by omega), hx]

theorem Forest.created_fsm (hf : h.Forest) (kind : StateKind) (hg : h.fsm f = some g) :
    (h.created kind).fsm f = some g := by
  rw [created_fsm_eq, Function.update_of_ne (Nat.ne_of_lt (hf.fsm_lt hg)), hg]

theorem of_created_state {kind : StateKind} (hx : (h.created kind).state x = some o) :
    x = h.next + 1 ∧ o = ⟨kind, h.next, [], none, [], none, ∅, []⟩ ∨ h.state x = some o := by
  simp only [created, Function.update_apply] at hx
  split at hx
  · cases hx
    exact .inl ⟨‹_›, rfl⟩
  · exact .inr hx

theorem Forest.created_belongs (hf : h.Forest) (kind : StateKind) (hg : h.fsm f = some g) :
    (h.created kind).belongs f x = h.belongs f x := by
  rw [Bool.eq_iff_iff, belongs_iff, belongs_iff]
  constructor
  · rintro ⟨o, ho, hfsm⟩
    rcases of_created_state ho with ⟨_, rfl⟩ | ho
    · exact absurd hfsm (Nat.ne_of_gt (hf.fsm_lt hg))
    · exact ⟨o, ho, hfsm⟩
  · rintro ⟨o, ho, hfsm⟩
    exact ⟨o, hf.created_state kind ho, hfsm⟩

theorem Forest.created (hf : h.Forest) (kind : StateKind) : (h.created kind).Forest where
  owner s o ho := by
    rcases of_created_state ho with ⟨rfl, rfl⟩ | ho
    · exact ⟨⟨{h.next + 1}, 0, []⟩, by simp [StateHeap.created], by simp⟩
    · obtain ⟨g, hg, hiff⟩ := hf.owner s o ho
      exact ⟨g, hf.created_fsm kind hg, hiff⟩
  listed f g s hg hs := by
    by_cases heq : f = h.next
    · simp only [StateHeap.created, heq, Function.update_self, Option.some.injEq] at hg
      subst hg
      rw [Finset.mem_singleton] at hs
      subst hs
      exact ⟨_, by rw [created_state_eq, Function.update_self], heq.symm⟩
    · rw [created_fsm_eq, Function.update_of_ne heq] at hg
      obtain ⟨o, ho, hfsm⟩ := hf.listed f g s hg hs
      exact ⟨o, hf.created_state kind ho, hfsm⟩
  child s o c ho := by
    rcases of_created_state ho with ⟨rfl, rfl⟩ | ho
    · constructor
      · exact fun hc => absurd hc (by simp)
      · rintro ⟨oc, hoc, hp⟩
        rcases of_created_state hoc with ⟨_, rfl⟩ | hoc
        · cases hp
        · obtain ⟨o', ho', _⟩ := hf.parent c oc _ hoc hp
          have := hf.state_lt ho'
          omega
    · rw [hf.child s o c ho]
      constructor
      · rintro ⟨oc, hoc, hp⟩
        exact ⟨oc, hf.created_state kind hoc, hp⟩
      · rintro ⟨oc, hoc, hp⟩
        rcases of_created_state hoc with ⟨_, rfl⟩ | hoc
        · cases hp
        · exact ⟨oc, hoc, hp⟩
  parent c oc s hoc hp := by
    rcases of_created_state hoc with ⟨_, rfl⟩ | hoc
    · cases hp
    · obtain ⟨o, ho, hfsm⟩ := hf.parent c oc s hoc hp
      exact ⟨o, hf.created_state kind ho, hfsm⟩
  nodup s o ho := by
    rcases of_created_state ho with ⟨_, rfl⟩ | ho
    · exact List.nodup_nil
    · exact hf.nodup s o ho
  counted f g hg := by
    by_cases heq : f = h.next
    · simp only [StateHeap.created, heq, Function.update_self, Option.some.injEq] at hg
      subst hg
      refine (List.countP_eq_zero.mpr fun s hs hb => ?_).symm
      obtain ⟨o, ho, hfsm⟩ := belongs_iff.mp hb
      obtain ⟨o', ho'⟩ := Option.isSome_iff_exists.mp (hf.held s hs)
      rw [hf.created_state kind ho', Option.some.injEq] at ho
      subst ho
      obtain ⟨g, hg, _⟩ := hf.owner s _ ho'
      have := hf.fsm_lt hg
      omega
    · rw [created_fsm_eq, Function.update_of_ne heq] at hg
      rw [hf.counted f g hg]
      exact List.countP_congr fun x _ => by rw [hf.created_belongs kind hg]
  held s hs := by
    obtain ⟨o, ho⟩ := Option.isSome_iff_exists.mp (hf.held s hs)
    rw [Live, hf.created_state kind ho]
    rfl
  fresh x hx := by
    have hx : h.next + 2 ≤ x := hx
    rw [created_state_eq, created_fsm_eq, Function.update_of_ne (by omega), Function.update_of_ne (by omega)]
    exact hf.fresh x (by omega)
  layered := by
    obtain ⟨depth, height, hlayer⟩ := hf.layered
    refine ⟨Function.update depth (h.next + 1) 0, height + 1, fun c oc hoc => ?_⟩
    rcases of_created_state hoc with ⟨rfl, rfl⟩ | hoc
    · simp
    · have hlt := hf.state_lt hoc
      rw [Function.update_of_ne (by omega)]
      refine ⟨Nat.lt_succ_of_lt (hlayer c oc hoc).1, fun s hp => ?_⟩
      obtain ⟨o, ho, _⟩ := hf.parent c oc s hoc hp
      have := hf.state_lt ho
      rw [Function.update_of_ne (by omega)]
      exact (hlayer c oc hoc).2 s hp

/-! ## Added states -/

structure Added (t s : Nat) (h h' : StateHeap R H) : Prop where
  state : ∀ x, (h'.state x).map (fun o => (o.fsm, o.parent, o.c)) =
    (h.state x).map fun o => (o.fsm, if x = s then some t else o.parent, if x = t then o.c ++ [s] else o.c)
  fsm : ∀ f, (h'.fsm f).map (fun g => (g.states, g.useCount)) = (h.fsm f).map fun g => (g.states.erase s, g.useCount)
  next : h'.next = h.next
  ptrs : h'.ptrs = h.ptrs

namespace Added

theorem state_some (ha : Added t s h h') (hx : h.state x = some o) : ∃ o', h'.state x = some o' ∧ o'.fsm = o.fsm ∧
    o'.parent = (if x = s then some t else o.parent) ∧ o'.c = if x = t then o.c ++ [s] else o.c := by
  have := ha.state x
  rw [hx] at this
  obtain ⟨o', ho', heq⟩ := Option.map_eq_some_iff.mp this
  simp only [Prod.mk.injEq] at heq
  exact ⟨o', ho', heq⟩

theorem of_state {o' : StateObject R} (ha : Added t s h h') (hx : h'.state x = some o') :
    ∃ o, h.state x = some o ∧ o'.fsm = o.fsm ∧
      o'.parent = (if x = s then some t else o.parent) ∧ o'.c = if x = t then o.c ++ [s] else o.c := by
  have := (ha.state x).symm
  rw [hx] at this
  obtain ⟨o, ho, heq⟩ := Option.map_eq_some_iff.mp this
  simp only [Prod.mk.injEq] at heq
  exact ⟨o, ho, heq.1.symm, heq.2.1.symm, heq.2.2.symm⟩

theorem fsm_some (ha : Added t s h h') (hg : h.fsm f = some g) :
    ∃ g', h'.fsm f = some g' ∧ g'.states = g.states.erase s ∧ g'.useCount = g.useCount := by
  have := ha.fsm f
  rw [hg] at this
  obtain ⟨g', hg', heq⟩ := Option.map_eq_some_iff.mp this
  simp only [Prod.mk.injEq] at heq
  exact ⟨g', hg', heq⟩

theorem of_fsm {g' : FsmObject H} (ha : Added t s h h') (hg : h'.fsm f = some g') :
    ∃ g, h.fsm f = some g ∧ g'.states = g.states.erase s ∧ g'.useCount = g.useCount := by
  have := (ha.fsm f).symm
  rw [hg] at this
  obtain ⟨g, hg, heq⟩ := Option.map_eq_some_iff.mp this
  simp only [Prod.mk.injEq] at heq
  exact ⟨g, hg, heq.1.symm, heq.2.symm⟩

theorem belongs (ha : Added t s h h') : h'.belongs f x = h.belongs f x := by
  rw [Bool.eq_iff_iff, belongs_iff, belongs_iff]
  constructor
  · rintro ⟨o', ho', hfsm⟩
    obtain ⟨o, ho, heq, _⟩ := ha.of_state ho'
    exact ⟨o, ho, heq ▸ hfsm⟩
  · rintro ⟨o, ho, hfsm⟩
    obtain ⟨o', ho', heq, _⟩ := ha.state_some ho
    exact ⟨o', ho', heq.trans hfsm⟩

theorem forest (ha : Added t s h h') (hf : h.Forest) (ht : h.state t = some o) (hs : h.state s = some os)
    (hfsm : os.fsm = o.fsm) (hroot : os.parent = none) (hnot : ¬ h.Below s t) : h'.Forest where
  owner x o' ho' := by
    obtain ⟨o₀, ho₀, heq, hp, _⟩ := ha.of_state ho'
    obtain ⟨g, hg, hiff⟩ := hf.owner x o₀ ho₀
    obtain ⟨g', hg', hstates, _⟩ := ha.fsm_some hg
    refine ⟨g', heq ▸ hg', ?_⟩
    rw [hstates, Finset.mem_erase, hiff, hp]
    by_cases hxs : x = s
    · simp [hxs]
    · simp [hxs]
  listed f g' x hg' hx := by
    obtain ⟨g, hg, hstates, _⟩ := ha.of_fsm hg'
    rw [hstates, Finset.mem_erase] at hx
    obtain ⟨o₀, ho₀, hfs⟩ := hf.listed f g x hg hx.2
    obtain ⟨o', ho', heq, _⟩ := ha.state_some ho₀
    exact ⟨o', ho', heq.trans hfs⟩
  child x o' c ho' := by
    obtain ⟨o₀, ho₀, _, _, hc⟩ := ha.of_state ho'
    have hold : c ∈ o₀.c ↔ c ≠ s ∧ c ∈ o₀.c := by
      refine (and_iff_right_of_imp fun hmem heq => ?_).symm
      obtain ⟨oc, hoc, hp⟩ := (hf.child x o₀ c ho₀).mp hmem
      rw [heq, hs, Option.some.injEq] at hoc
      rw [← hoc, hroot] at hp
      cases hp
    have hnew : (∃ oc', h'.state c = some oc' ∧ oc'.parent = some x) ↔
        c = s ∧ x = t ∨ c ≠ s ∧ ∃ oc, h.state c = some oc ∧ oc.parent = some x := by
      constructor
      · rintro ⟨oc', hoc', hp'⟩
        obtain ⟨oc, hoc, _, hp, _⟩ := ha.of_state hoc'
        rw [hp] at hp'
        split at hp'
        · exact .inl ⟨‹_›, (Option.some.inj hp').symm⟩
        · exact .inr ⟨‹_›, oc, hoc, hp'⟩
      · rintro (⟨rfl, rfl⟩ | ⟨hne, oc, hoc, hp⟩)
        · obtain ⟨oc', hoc', _, hp', _⟩ := ha.state_some hs
          exact ⟨oc', hoc', by rw [hp', if_pos rfl]⟩
        · obtain ⟨oc', hoc', _, hp', _⟩ := ha.state_some hoc
          exact ⟨oc', hoc', by rw [hp', if_neg hne, hp]⟩
    rw [hnew, ← hf.child x o₀ c ho₀, ← hold, hc]
    by_cases hxt : x = t
    · simp [hxt, or_comm]
    · simp [hxt]
  parent c oc' x hoc' hp' := by
    obtain ⟨oc, hoc, heq, hp, _⟩ := ha.of_state hoc'
    rw [hp] at hp'
    split at hp'
    · rename_i hcs
      cases hp'
      obtain ⟨o', ho', heq', _⟩ := ha.state_some ht
      rw [hcs, hs, Option.some.injEq] at hoc
      subst hoc
      exact ⟨o', ho', by rw [heq', heq, hfsm]⟩
    · obtain ⟨o₀, ho₀, hfs⟩ := hf.parent c oc x hoc hp'
      obtain ⟨o', ho', heq', _⟩ := ha.state_some ho₀
      exact ⟨o', ho', by rw [heq', heq, hfs]⟩
  nodup x o' ho' := by
    obtain ⟨o₀, ho₀, _, _, hc⟩ := ha.of_state ho'
    rw [hc]
    split
    · refine List.nodup_append.mpr ⟨hf.nodup x o₀ ho₀, List.nodup_singleton s, fun c hmem c' hc' heq => ?_⟩
      rw [List.mem_singleton] at hc'
      obtain ⟨oc, hoc, hp⟩ := (hf.child x o₀ c ho₀).mp hmem
      rw [heq, hc', hs, Option.some.injEq] at hoc
      rw [← hoc, hroot] at hp
      cases hp
    · exact hf.nodup x o₀ ho₀
  counted f g' hg' := by
    obtain ⟨g, hg, _, hcount⟩ := ha.of_fsm hg'
    rw [hcount, hf.counted f g hg, ha.ptrs]
    exact List.countP_congr fun x _ => by rw [ha.belongs]
  held x hx := by
    rw [ha.ptrs] at hx
    obtain ⟨o₀, ho₀⟩ := Option.isSome_iff_exists.mp (hf.held x hx)
    obtain ⟨o', ho', _⟩ := ha.state_some ho₀
    rw [Live, ho']
    rfl
  fresh x hx := by
    rw [ha.next] at hx
    have hstate := ha.state x
    have hfs := ha.fsm x
    rw [(hf.fresh x hx).1, Option.map_none, Option.map_eq_none_iff] at hstate
    rw [(hf.fresh x hx).2, Option.map_none, Option.map_eq_none_iff] at hfs
    exact ⟨hstate, hfs⟩
  layered := by
    classical
    obtain ⟨depth, height, hlayer⟩ := hf.layered
    -- what is contained in `s` moves below `t`
    obtain ⟨depth', hin, hout⟩ : ∃ depth' : Nat → Nat,
        (∀ x, h.Below s x → depth' x = depth x + depth t + 1) ∧ ∀ x, ¬ h.Below s x → depth' x = depth x :=
      ⟨fun x => if h.Below s x then depth x + depth t + 1 else depth x, fun _ hb => if_pos hb, fun _ hb => if_neg hb⟩
    have htop := (hlayer t o ht).1
    refine ⟨depth', 2 * height, fun c oc' hoc' => ?_⟩
    obtain ⟨oc, hoc, _, hp, _⟩ := ha.of_state hoc'
    have hlt := (hlayer c oc hoc).1
    constructor
    · by_cases hb : h.Below s c
      · rw [hin c hb]
        omega
      · rw [hout c hb]
        omega
    · intro p hp'
      rw [hp] at hp'
      split at hp'
      · rename_i hcs
        cases hp'
        rw [hin c (hcs ▸ .refl), hout t hnot]
        omega
      · have hup := (hlayer c oc hoc).2 p hp'
        have hchild : h.Child p c := hf.child_iff.mpr ⟨oc, hoc, hp'⟩
        by_cases hb : h.Below s p
        · rw [hin p hb, hin c (hb.tail hchild)]
          omega
        · rw [hout p hb]
          by_cases hbc : h.Below s c
          · rw [hin c hbc]
            omega
          · rwa [hout c hbc]

end Added

/-! ## Merging -/

theorem together_iff : h.Together s d ↔ ∃ f, h.belongs f s = true ∧ h.belongs f d = true := by
  simp only [belongs_iff]
  constructor
  · rintro ⟨o, od, ho, hod, heq⟩
    exact ⟨o.fsm, ⟨o, ho, rfl⟩, od, hod, heq⟩
  · rintro ⟨f, ⟨o, ho, rfl⟩, od, hod, heq⟩
    exact ⟨o, od, ho, hod, heq⟩

structure Merging (h h' : StateHeap R H) : Prop where
  old : ∀ f g', h'.fsm f = some g' → ∃ g, h.fsm f = some g ∧ g'.transitionHooks = g.transitionHooks
  moved : ∀ f, (h.fsm f).isSome → ∃ f', (h'.fsm f').isSome ∧ (∀ x, h.belongs f x = true → h'.belongs f' x = true) ∧
    ((h'.fsm f).isSome → f' = f)
  born : ∀ x, h'.Live x → h.Live x
  next : h'.next = h.next

theorem live_iff : h.Live x ↔ ∃ f, h.belongs f x = true := by
  simp only [belongs_iff]
  constructor
  · intro hx
    obtain ⟨o, ho⟩ := Option.isSome_iff_exists.mp hx
    exact ⟨o.fsm, o, ho, rfl⟩
  · rintro ⟨_, o, ho, _⟩
    rw [Live, ho]
    rfl

namespace Merging

theorem isSome (hm : Merging h h') (hf : (h'.fsm f).isSome) : (h.fsm f).isSome := by
  obtain ⟨g', hg'⟩ := Option.isSome_iff_exists.mp hf
  obtain ⟨g, hg, _⟩ := hm.old f g' hg'
  rw [hg]
  rfl

theorem refl (h : StateHeap R H) : Merging h h where
  old _ g hg := ⟨g, hg, rfl⟩
  moved f hf := ⟨f, hf, fun _ hx => hx, fun _ => rfl⟩
  born _ hx := hx
  next := rfl

theorem trans (hm : Merging h h₁) (hm' : Merging h₁ h₂) : Merging h h₂ where
  old f g₂ hg₂ := by
    obtain ⟨g₁, hg₁, heq₁⟩ := hm'.old f g₂ hg₂
    obtain ⟨g, hg, heq⟩ := hm.old f g₁ hg₁
    exact ⟨g, hg, heq₁.trans heq⟩
  moved f hf := by
    obtain ⟨f₁, hf₁, hx₁, heq₁⟩ := hm.moved f hf
    obtain ⟨f₂, hf₂, hx₂, heq₂⟩ := hm'.moved f₁ hf₁
    refine ⟨f₂, hf₂, fun x hx => hx₂ x (hx₁ x hx), fun hf' => ?_⟩
    obtain rfl := heq₁ (hm'.isSome hf')
    exact heq₂ hf'
  born x hx := hm.born x (hm'.born x hx)
  next := hm'.next.trans hm.next

theorem of_belongs (hooks : ∀ f, (h'.fsm f).map FsmObject.transitionHooks = (h.fsm f).map FsmObject.transitionHooks)
    (hb : ∀ f x, h'.belongs f x = h.belongs f x) (hnext : h'.next = h.next) : Merging h h' where
  old f g' hg' := by
    have := (hooks f).symm
    rw [hg'] at this
    obtain ⟨g, hg, heq⟩ := Option.map_eq_some_iff.mp this
    exact ⟨g, hg, heq.symm⟩
  moved f hf := ⟨f, by rw [← Option.isSome_map, hooks f, Option.isSome_map, hf], fun x hx => (hb f x).trans hx, fun _ => rfl⟩
  born x hx := by
    rw [live_iff] at hx ⊢
    obtain ⟨f, hf⟩ := hx
    exact ⟨f, hb f x ▸ hf⟩
  next := hnext

theorem together (hm : Merging h h') (hf : h.Forest) (ht : h.Together s d) : h'.Together s d := by
  obtain ⟨o, od, ho, hod, heq⟩ := ht
  obtain ⟨g, hg, _⟩ := hf.owner s o ho
  obtain ⟨f', _, hx, _⟩ := hm.moved o.fsm (by rw [hg]; rfl)
  exact together_iff.mpr ⟨f', hx s (belongs_self ho), hx d (belongs_iff.mpr ⟨od, hod, heq⟩)⟩

theorem live (hm : Merging h h') (hf : h.Forest) (hs : h.Live s) : h'.Live s := by
  obtain ⟨o, ho⟩ := Option.isSome_iff_exists.mp hs
  obtain ⟨o', _, ho', _⟩ := hm.together hf ⟨o, o, ho, ho, rfl⟩
  rw [Live, ho']
  rfl

end Merging

theorem SameShape.merging (hsh : SameShape h h')
    (hooks : ∀ f, (h'.fsm f).map FsmObject.transitionHooks = (h.fsm f).map FsmObject.transitionHooks) : Merging h h' :=
  .of_belongs hooks (fun _ _ => hsh.belongs) hsh.next

theorem Added.merging (ha : Added t s h h')
    (hooks : ∀ f, (h'.fsm f).map FsmObject.transitionHooks = (h.fsm f).map FsmObject.transitionHooks) : Merging h h' :=
  .of_belongs hooks (fun _ _ => ha.belongs) ha.next

/-- The FSMs of `s` and `d` are one. -/
structure Unified (s d : Nat) (h h' : StateHeap R H) : Prop where
  forest : h'.Forest
  merging : Merging h h'
  state : ∀ x, ∃ f, h'.state x = (h.state x).map fun o => { o with fsm := f }
  used : (∀ f g, h.fsm f = some g → 0 < g.useCount) → ∀ f g, h'.fsm f = some g → 0 < g.useCount
  together : h'.Together s d
  ptrs : h'.ptrs = h.ptrs
  /-- Only the FSM of `d` is gone, and only states of it come to that of `s`. -/
  kept : ∀ f, (h.fsm f).isSome → (h.belongs f d = true → h.belongs f s = true) → (h'.fsm f).isSome
  came : ∀ f x, h'.belongs f x = true → h.belongs f x = true ∨ h'.belongs f s = true

namespace Unified

theorem state_some (hu : Unified s d h h') (hx : h.state x = some o) : ∃ f, h'.state x = some { o with fsm := f } := by
  obtain ⟨f, hf⟩ := hu.state x
  exact ⟨f, by rw [hf, hx, Option.map_some]⟩

theorem of_state {o' : StateObject R} (hu : Unified s d h h') (hx : h'.state x = some o') :
    ∃ o f, h.state x = some o ∧ o' = { o with fsm := f } := by
  obtain ⟨f, hf⟩ := hu.state x
  rw [hx] at hf
  obtain ⟨o, ho, rfl⟩ := Option.map_eq_some_iff.mp hf.symm
  exact ⟨o, f, ho, rfl⟩

end Unified

theorem merged_merging {this fr : Nat} {g' : FsmObject H} (hne : this ≠ fr) (hg : h.fsm this = some g) :
    Merging h (h.merged this fr g g') where
  old f go hgo := by
    rw [merged_fsm] at hgo
    split at hgo
    · cases hgo
    · split at hgo
      · rename_i hthis
        cases hgo
        exact ⟨g, hthis ▸ hg, rfl⟩
      · exact ⟨go, hgo, rfl⟩
  moved f hf := by
    by_cases hfr : f = fr
    · refine ⟨this, ?_, fun x hx => ?_, fun hf' => ?_⟩
      · rw [merged_fsm, if_neg hne, if_pos rfl]
        rfl
      · rw [merged_belongs hne, if_neg hne, if_pos rfl, ← hfr, hx, Bool.or_true]
      · rw [merged_fsm, if_pos hfr] at hf'
        cases hf'
    · refine ⟨f, ?_, fun x hx => ?_, fun _ => rfl⟩
      · rw [merged_fsm, if_neg hfr]
        split
        · rfl
        · exact hf
      · rw [merged_belongs hne, if_neg hfr]
        split
        · rename_i hthis
          rw [← hthis, hx, Bool.true_or]
        · exact hx
  born x hx := by
    obtain ⟨o', ho'⟩ := Option.isSome_iff_exists.mp hx
    obtain ⟨o, ho, _⟩ := of_merged_state ho'
    rw [Live, ho]
    rfl
  next := rfl

theorem unify_spec (hf : h.Forest) (hs : h.state s = some o) (hd : h.state d = some od) :
    ∃ h', (∃ n, ∀ fuel ≥ n, h.unify b fuel o.fsm od.fsm = some h') ∧ Unified s d h h' := by
  by_cases heq : o.fsm = od.fsm
  · refine ⟨h, ⟨0, fun fuel _ => by rw [heq, unify_self]⟩, hf, .refl h, fun x => ?_, fun hu => hu, ⟨o, od, hs, hd, heq.symm⟩, rfl,
      fun _ hf _ => hf, fun _ _ hx => .inl hx⟩
    cases hx : h.state x with
    | none => exact ⟨0, rfl⟩
    | some ox => exact ⟨ox.fsm, rfl⟩
  · obtain ⟨g, hg, _⟩ := hf.owner s o hs
    obtain ⟨g', hg', _⟩ := hf.owner d od hd
    refine ⟨_, unify_eq hf heq hg hg', hf.merged heq hg hg', merged_merging heq hg, fun x => ?_, fun hu f go hgo => ?_, ?_, rfl,
      fun f hsome hlink => ?_, fun f x hx => ?_⟩
    · cases hx : h.state x with
      | none => exact ⟨0, by simp [merged, hx]⟩
      | some ox => exact ⟨_, merged_state hx⟩
    · rw [merged_fsm] at hgo
      split at hgo
      · cases hgo
      · split at hgo
        · cases hgo
          exact Nat.add_pos_left (hu _ g hg) _
        · exact hu f go hgo
    · exact ⟨_, _, merged_state hs, merged_state hd, by simp [heq]⟩
    · have hfr : f ≠ od.fsm := fun hff => heq (belongs_unique (belongs_self hs) (hff ▸ hlink (hff ▸ belongs_self hd)))
      rw [merged_fsm, if_neg hfr]
      split
      · rfl
      · exact hsome
    · rw [merged_belongs heq] at hx ⊢
      split at hx
      · cases hx
      · rename_i hfr
        rw [if_neg hfr]
        split at hx
        · rename_i hthis
          rw [if_pos hthis, belongs_self hs, Bool.true_or]
          exact .inr rfl
        · exact .inl hx

/-! ## The operations -/

structure Valid (h : StateHeap R H) : Prop extends h.Forest where
  connected : ∀ s o d, h.state s = some o → o.LeadsTo d → h.Together s d
  used : ∀ f g, h.fsm f = some g → 0 < g.useCount

theorem Valid.of_together (hv : h.Valid) (hf : h'.Forest) (hm : ∀ s d, h.Together s d → h'.Together s d)
    (hlead : ∀ s o' d, h'.state s = some o' → o'.LeadsTo d → (∃ o, h.state s = some o ∧ o.LeadsTo d) ∨ h'.Together s d)
    (hused : ∀ f g, h'.fsm f = some g → 0 < g.useCount) : h'.Valid where
  toForest := hf
  connected s o' d ho' hd := by
    rcases hlead s o' d ho' hd with ⟨o, ho, hd⟩ | ht
    · exact hm s d (hv.connected s o d ho hd)
    · exact ht
  used := hused

theorem SameShape.putState {o' : StateObject R} (hs : h.state s = some o) (hfsm : o'.fsm = o.fsm)
    (hp : o'.parent = o.parent) (hc : o'.c = o.c) : SameShape h (h.putState s (some o')) where
  state x := by
    by_cases hxs : x = s
    · simp [hxs, hs, hfsm, hp, hc]
    · simp [hxs]
  fsm _ := rfl
  next := rfl
  ptrs := rfl

theorem SameShape.putFsm {g' : FsmObject H} (hg : h.fsm f = some g) (hstates : g'.states = g.states)
    (hcount : g'.useCount = g.useCount) : SameShape h (h.putFsm f (some g')) where
  state _ := rfl
  fsm f' := by
    by_cases hff : f' = f
    · simp [hff, hg, hstates, hcount]
    · simp [hff]
  next := rfl
  ptrs := rfl

theorem SameShape.used (hsh : SameShape h h') (hu : ∀ f g, h.fsm f = some g → 0 < g.useCount) :
    ∀ f g, h'.fsm f = some g → 0 < g.useCount := by
  intro f g' hg'
  obtain ⟨g, hg, _, hcount⟩ := hsh.symm.fsm_some hg'
  exact hcount ▸ hu f g hg

theorem putState_hooks (o' : Option (StateObject R)) (f : Nat) :
    ((h.putState s o').fsm f).map FsmObject.transitionHooks = (h.fsm f).map FsmObject.transitionHooks := rfl

theorem addTransition_spec (hv : h.Valid) (hs : h.Live s) {pt : R × Nat} (hd : h.Live pt.2) :
    ∃ h', (∃ n, ∀ fuel ≥ n, h.addTransition b fuel s pt = some h') ∧ h'.Valid ∧ Merging h h' ∧
      (∀ f, (h.fsm f).isSome → (h.belongs f pt.2 = true → h.belongs f s = true) → (h'.fsm f).isSome) ∧
      ∀ f x, h'.belongs f x = true → h.belongs f x = true ∨ h'.belongs f s = true := by
  obtain ⟨o, ho⟩ := Option.isSome_iff_exists.mp hs
  -- the transition is there before the FSMs are one
  have hsh : SameShape h (h.putState s (some { o with ptl := o.ptl ++ [pt] })) := .putState ho rfl rfl rfl
  have hpush := hsh.merging (putState_hooks _)
  obtain ⟨od, hod⟩ := Option.isSome_iff_exists.mp (hpush.live hv.toForest hd)
  obtain ⟨h', ⟨n, hn⟩, hu⟩ := unify_spec (b := b) (hsh.forest hv.toForest)
    (s := s) (o := { o with ptl := o.ptl ++ [pt] }) (by rw [putState_state, Function.update_self]) hod
  have hm := hpush.trans hu.merging
  refine ⟨h', ⟨n, fun fuel hfuel => ?_⟩, hv.of_together hu.forest (fun _ _ => hm.together hv.toForest)
    (fun x o' d hx hlead => ?_) (hu.used (hsh.used hv.used)), hm, fun f hf hlink => ?_, fun f x hx => ?_⟩
  · rw [addTransition]
    exact Option.bind_eq_some_iff.mpr ⟨o, ho, Option.bind_eq_some_iff.mpr ⟨od, hod, hn fuel hfuel⟩⟩
  · obtain ⟨o₁, f, ho₁, rfl⟩ := hu.of_state hx
    by_cases hxs : x = s
    · subst hxs
      rw [putState_state, Function.update_self, Option.some.injEq] at ho₁
      subst ho₁
      simp only [StateObject.LeadsTo, List.map_append, List.map_cons, List.map_nil, List.mem_append, List.mem_singleton] at hlead
      rcases hlead with (hlead | rfl) | hlead
      · exact .inl ⟨o, ho, .inl hlead⟩
      · exact .inr hu.together
      · exact .inl ⟨o, ho, .inr hlead⟩
    · rw [putState_state, Function.update_of_ne hxs] at ho₁
      exact .inl ⟨o₁, ho₁, hlead⟩
  · exact hu.kept f hf fun hb => hsh.belongs.trans (hlink (hsh.belongs.symm.trans hb))
  · exact (hu.came f x hx).imp_left hsh.belongs.symm.trans

theorem addTransitions_spec (stl : List (R × Nat)) : ∀ {h : StateHeap R H}, h.Valid → h.Live s → (∀ pt ∈ stl, h.Live pt.2) →
    ∃ h', (∃ n, ∀ fuel ≥ n, stl.foldlM (addTransition b fuel s) h = some h') ∧ h'.Valid ∧ Merging h h' ∧
      ∀ f, (h.fsm f).isSome → ¬ h.Absorbed (stl.map fun pt => (s, pt.2)) f → (h'.fsm f).isSome := by
  induction stl with
  | nil => exact fun {h} hv _ _ => ⟨h, ⟨0, fun _ _ => rfl⟩, hv, .refl h, fun _ hf _ => hf⟩
  | cons pt stl ih =>
    intro h hv hs hd
    obtain ⟨h₁, ⟨n, hn⟩, hv₁, hm₁, hkept, hcame⟩ := addTransition_spec (b := b) hv hs (hd pt List.mem_cons_self)
    obtain ⟨h₂, ⟨n', hn'⟩, hv₂, hm₂, hkept'⟩ := ih hv₁ (hm₁.live hv.toForest hs)
      fun pt' hpt' => hm₁.live hv.toForest (hd pt' (List.mem_cons_of_mem pt hpt'))
    refine ⟨h₂, ⟨max n n', fun fuel hfuel => ?_⟩, hv₂, hm₁.trans hm₂, fun f hf hnot => ?_⟩
    · rw [List.foldlM_cons, hn fuel (Nat.le_trans (Nat.le_max_left _ _) hfuel)]
      exact hn' fuel (Nat.le_trans (Nat.le_max_right _ _) hfuel)
    · have hlink : ∀ pt' ∈ pt :: stl, h.belongs f pt'.2 = true → h.belongs f s = true := fun pt' hpt' hb =>
        by_contra fun hs => hnot ⟨(s, pt'.2), List.mem_map.mpr ⟨pt', hpt', rfl⟩, hb, hs⟩
      have hf₁ := hkept f hf (hlink pt List.mem_cons_self)
      refine hkept' f hf₁ ?_
      rintro ⟨_, hl, hb, hs₁⟩
      obtain ⟨pt', hpt', rfl⟩ := List.mem_map.mp hl
      rcases hcame f pt'.2 hb with hb | hb
      · obtain ⟨f', _, hx, heq⟩ := hm₁.moved f hf
        exact hs₁ (heq hf₁ ▸ hx s (hlink pt' (List.mem_cons_of_mem pt hpt') hb))
      · exact hs₁ hb

theorem clearTransition_spec (hv : h.Valid) (hs : h.Live s) :
    ∃ h', h.clearTransition s = some h' ∧ h'.Valid ∧ Merging h h' ∧ h'.fsm = h.fsm := by
  obtain ⟨o, ho⟩ := Option.isSome_iff_exists.mp hs
  have hsh : SameShape h (h.putState s (some { o with ptl := [] })) := .putState ho rfl rfl rfl
  have hm := hsh.merging (putState_hooks _)
  refine ⟨_, ?_, hv.of_together (hsh.forest hv.toForest) (fun _ _ => hm.together hv.toForest)
    (fun x o' d hx hlead => .inl ?_) (hsh.used hv.used), hm, rfl⟩
  · rw [clearTransition]
    exact Option.bind_eq_some_iff.mpr ⟨o, ho, rfl⟩
  · by_cases hxs : x = s
    · subst hxs
      rw [putState_state, Function.update_self, Option.some.injEq] at hx
      subst hx
      exact ⟨o, ho, .inr (hlead.resolve_left (by simp))⟩
    · rw [putState_state, Function.update_of_ne hxs] at hx
      exact ⟨o', hx, hlead⟩

theorem addTransitionHook_spec (hv : h.Valid) (hs : h.Live s) (hook : H) :
    ∃ h', h.addTransitionHook s hook = some h' ∧ h'.Valid ∧ SameShape h h' ∧
      ∀ f g', h'.fsm f = some g' → ∃ g, h.fsm f = some g ∧
        g'.transitionHooks = g.transitionHooks ++ if h.belongs f s then [hook] else [] := by
  obtain ⟨o, ho⟩ := Option.isSome_iff_exists.mp hs
  obtain ⟨g, hg, _⟩ := hv.owner s o ho
  have hsh : SameShape h (h.putFsm o.fsm (some { g with transitionHooks := g.transitionHooks ++ [hook] })) := .putFsm hg rfl rfl
  refine ⟨_, ?_, hv.of_together (hsh.forest hv.toForest) (fun _ _ => hsh.together) (fun x o' d hx hlead => .inl ⟨o', hx, hlead⟩)
    (hsh.used hv.used), hsh, fun f g' hg' => ?_⟩
  · rw [addTransitionHook]
    exact Option.bind_eq_some_iff.mpr ⟨o, ho, Option.bind_eq_some_iff.mpr ⟨g, hg, rfl⟩⟩
  · by_cases hff : f = o.fsm
    · rw [putFsm_fsm, hff, Function.update_self, Option.some.injEq] at hg'
      subst hg'
      exact ⟨g, hff ▸ hg, by rw [hff, if_pos (belongs_self ho)]⟩
    · rw [putFsm_fsm, Function.update_of_ne hff] at hg'
      exact ⟨g', hg', by rw [if_neg (not_belongs ho hff), List.append_nil]⟩

theorem acquire_spec (hf : h.Forest) (hs : h.state s = some o) :
    ∃ h', h.acquire s = some h' ∧ h'.Forest ∧ h'.state = h.state ∧ h'.next = h.next ∧
      (∀ f, (h'.fsm f).map FsmObject.transitionHooks = (h.fsm f).map FsmObject.transitionHooks) ∧
      ∀ f g', h'.fsm f = some g' → f = o.fsm ∧ 0 < g'.useCount ∨ f ≠ o.fsm ∧ h.fsm f = some g' := by
  obtain ⟨g, hg, _⟩ := hf.owner s o hs
  refine ⟨_, ?_, hf.acquired hs hg, rfl, rfl, fun f => ?_, fun f g' hg' => ?_⟩
  · rw [acquire]
    refine Option.bind_eq_some_iff.mpr ⟨o, hs, Option.bind_eq_some_iff.mpr ⟨_, ?_, rfl⟩⟩
    rw [addRef]
    exact Option.bind_eq_some_iff.mpr ⟨g, hg, rfl⟩
  · by_cases hff : f = o.fsm
    · simp [hff, hg]
    · simp [hff]
  · by_cases hff : f = o.fsm
    · simp only [putFsm_fsm, hff, Function.update_self, Option.some.injEq] at hg'
      subst hg'
      exact .inl ⟨hff, Nat.succ_pos _⟩
    · simp only [putFsm_fsm, Function.update_of_ne hff] at hg'
      exact .inr ⟨hff, hg'⟩

theorem acquire_valid (hv : h.Valid) (hs : h.Live s) :
    ∃ h', h.acquire s = some h' ∧ h'.Valid ∧ Merging h h' ∧ ∀ f, (h'.fsm f).isSome = (h.fsm f).isSome := by
  obtain ⟨o, ho⟩ := Option.isSome_iff_exists.mp hs
  obtain ⟨h', hacq, hf, hstate, hnext, hhooks, hfsm⟩ := acquire_spec hv.toForest ho
  have hm : Merging h h' := .of_belongs hhooks (fun f x => belongs_congr hstate) hnext
  refine ⟨h', hacq, hv.of_together hf (fun _ _ => hm.together hv.toForest) (fun x o' d hx hlead => .inl ⟨o', hstate ▸ hx, hlead⟩)
    (fun f g hg => ?_), hm, fun f => by rw [← Option.isSome_map, hhooks f, Option.isSome_map]⟩
  rcases hfsm f g hg with ⟨_, hpos⟩ | ⟨_, hg⟩
  · exact hpos
  · exact hv.used f g hg

theorem construct_spec (hv : h.Valid) (kind : StateKind) :
    ∃ h', h.construct kind = some h' ∧ h'.Valid ∧ h'.next = h.next + 2 ∧
      (∀ f, (h.fsm f).isSome → (h'.fsm f).isSome ∧ ∀ x, h'.belongs f x = h.belongs f x) ∧
      (∀ f g', h'.fsm f = some g' → (∃ g, h.fsm f = some g ∧ g'.transitionHooks = g.transitionHooks) ∨
        h.fsm f = none ∧ g'.transitionHooks = []) ∧
      ∀ x, h'.Live x → h.Live x ∨ h.next ≤ x := by
  obtain ⟨h', hacq, hf, hstate, hnext, hhooks, hfsm⟩ := acquire_spec (hv.toForest.created kind) (s := h.next + 1)
    (by rw [created_state_eq, Function.update_self])
  have hkeep : ∀ f, (h.fsm f).isSome → (h'.fsm f).isSome ∧ ∀ x, h'.belongs f x = h.belongs f x := by
    intro f hsome
    obtain ⟨g, hg⟩ := Option.isSome_iff_exists.mp hsome
    refine ⟨?_, fun x => ?_⟩
    · rw [← Option.isSome_map, hhooks, Option.isSome_map, hv.toForest.created_fsm kind hg]
      rfl
    · rw [belongs_congr hstate, hv.toForest.created_belongs kind hg]
  refine ⟨h', hacq, ⟨hf, fun s o d ho hlead => ?_, fun f g hg => ?_⟩, hnext, hkeep, fun f g' hg' => ?_, fun x hx => ?_⟩
  · rw [hstate] at ho
    rcases of_created_state ho with ⟨_, rfl⟩ | ho
    · simp [StateObject.LeadsTo] at hlead
    · obtain ⟨os, od, hos, hod, heq⟩ := hv.connected s o d ho hlead
      exact ⟨os, od, hstate ▸ hv.toForest.created_state kind hos, hstate ▸ hv.toForest.created_state kind hod, heq⟩
  · rcases hfsm f g hg with ⟨_, hpos⟩ | ⟨hne, hg⟩
    · exact hpos
    · rw [created_fsm_eq, Function.update_of_ne hne] at hg
      exact hv.used f g hg
  · have heq := hhooks f
    rw [hg', Option.map_some, created_fsm_eq, Function.update_apply] at heq
    split at heq
    · rename_i hff
      exact .inr ⟨hff ▸ (hv.fresh h.next (Nat.le_refl _)).2, Option.some.inj heq⟩
    · obtain ⟨g, hg, heq⟩ := Option.map_eq_some_iff.mp heq.symm
      exact .inl ⟨g, hg, heq.symm⟩
  · obtain ⟨o, ho⟩ := Option.isSome_iff_exists.mp hx
    rw [hstate] at ho
    rcases of_created_state ho with ⟨rfl, _⟩ | ho
    · exact .inr (Nat.le_succ _)
    · rw [Live, ho]
      exact .inl rfl

theorem Unified.not_absorbed (hu : Unified s d h h') (hf : (h.fsm f).isSome) (hnot : ¬ h.Absorbed [(s, d)] f) :
    (h'.fsm f).isSome :=
  hu.kept f hf fun hb => by_contra fun hs => hnot ⟨(s, d), List.mem_singleton_self _, hb, hs⟩

theorem add_spec (hv : h.Valid) (isInit : Bool) (ht : h.state t = some o) (hs : h.state s = some os)
    (hroot : os.parent = none) (hnot : ¬ h.Below s t) :
    ∃ h', (∃ n, ∀ fuel ≥ n, h.add b fuel t s isInit = some h') ∧ h'.Valid ∧ Merging h h' ∧
      ∀ f, (h.fsm f).isSome → ¬ h.Absorbed [(t, s)] f → (h'.fsm f).isSome := by
  obtain ⟨h₁, ⟨n, hn⟩, hu⟩ := unify_spec (b := b) hv.toForest ht hs
  obtain ⟨o₁, os₁, ho₁, hos₁, heq⟩ := hu.together
  obtain ⟨o', f, ho', rfl⟩ := hu.of_state ho₁
  obtain ⟨os', f', hos', rfl⟩ := hu.of_state hos₁
  rw [ht, Option.some.injEq] at ho'
  rw [hs, Option.some.injEq] at hos'
  subst ho' hos'
  obtain rfl : f = f' := heq.symm
  obtain ⟨g, hg, hlist⟩ := hu.forest.owner s _ hos₁
  simp only at hg hlist
  have hbelow : ∀ {x}, h₁.Below s x → h.Below s x := by
    intro x hb
    induction hb with
    | refl => exact .refl
    | tail _ hc ih =>
      obtain ⟨oa, hoa, hc⟩ := hc
      obtain ⟨oa', f'', hoa', rfl⟩ := hu.of_state hoa
      exact ih.tail ⟨oa', hoa', hc⟩
  have hne : s ≠ t := fun heq => hnot (heq ▸ .refl)
  let o' : StateObject R := { o with fsm := f, c := o.c ++ [s], init := if isInit then some s else o.init }
  let os' : StateObject R := { os with fsm := f, parent := some t }
  have ha : Added t s h₁ (((h₁.putFsm f (some { g with states := g.states.erase s })).putState t (some o')).putState
      s (some os')) := by
    refine ⟨fun x => ?_, fun f' => ?_, rfl, rfl⟩
    · by_cases hxs : x = s
      · simp [hxs, hos₁, hne, os']
      · by_cases hxt : x = t
        · simp [hxt, ho₁, hne.symm, o']
        · simp [hxs, hxt]
    · by_cases hff : f' = f
      · simp [hff, hg]
      · simp only [putState_fsm, putFsm_fsm, Function.update_of_ne hff]
        -- no other FSM lists `s`
        cases hg' : h₁.fsm f' with
        | none => rfl
        | some g' =>
          have hnot : s ∉ g'.states := fun hmem => by
            obtain ⟨o₂, ho₂, hfsm⟩ := hu.forest.listed f' g' s hg' hmem
            rw [hos₁, Option.some.injEq] at ho₂
            exact hff (hfsm.symm.trans (congrArg StateObject.fsm ho₂.symm))
          rw [Option.map_some, Option.map_some, Finset.erase_eq_of_notMem hnot]
  have hhooks : ∀ f', (Function.update h₁.fsm f (some { g with states := g.states.erase s }) f').map
      FsmObject.transitionHooks = (h₁.fsm f').map FsmObject.transitionHooks := by
    intro f'
    by_cases hff : f' = f
    · simp [hff, hg]
    · simp [hff]
  have hm := hu.merging.trans (ha.merging hhooks)
  have hf' := ha.forest hu.forest ho₁ hos₁ rfl hroot fun hb => hnot (hbelow hb)
  refine ⟨_, ⟨n, fun fuel hfuel => ?_⟩, hv.of_together hf' (fun _ _ => hm.together hv.toForest)
    (fun x ox d hx hlead => ?_) (fun f g hg => ?_), hm, fun f' hf hnot => ?_⟩
  · rw [add]
    refine Option.bind_eq_some_iff.mpr ⟨o, ht, Option.bind_eq_some_iff.mpr ⟨os, hs,
      Option.bind_eq_some_iff.mpr ⟨h₁, hn fuel hfuel, Option.bind_eq_some_iff.mpr ⟨_, ho₁,
      Option.bind_eq_some_iff.mpr ⟨g, hg, Option.bind_eq_some_iff.mpr ⟨_, hos₁,
      Option.bind_eq_some_iff.mpr ⟨(), b.assert_of rfl, Option.bind_eq_some_iff.mpr ⟨(), b.assert_of (hlist.mpr hroot),
      Option.bind_eq_some_iff.mpr ⟨{ os with fsm := f }, ?_, Option.bind_eq_some_iff.mpr
          ⟨(), b.assert_of (.inl hroot), rfl⟩⟩⟩⟩⟩⟩⟩⟩⟩⟩
    rw [putState_state, Function.update_of_ne hne]
    exact hos₁
  · left
    by_cases hxs : x = s
    · subst hxs
      rw [putState_state, Function.update_self, Option.some.injEq] at hx
      subst hx
      exact ⟨os, hs, hlead⟩
    · rw [putState_state, Function.update_of_ne hxs, putState_state] at hx
      by_cases hxt : x = t
      · subst hxt
        rw [Function.update_self, Option.some.injEq] at hx
        subst hx
        exact ⟨o, ht, hlead⟩
      · rw [Function.update_of_ne hxt] at hx
        obtain ⟨o₂, f₂, ho₂, rfl⟩ := hu.of_state hx
        exact ⟨o₂, ho₂, hlead⟩
  · obtain ⟨g₀, hg₀, _, hcount⟩ := ha.of_fsm hg
    exact hcount ▸ hu.used hv.used f g₀ hg₀
  · rw [← Option.isSome_map, putState_hooks, putState_hooks, putFsm_fsm, hhooks, Option.isSome_map]
    exact hu.not_absorbed hf hnot

theorem Unified.putState (hu : Unified s d h h₁) (hv : h.Valid) (hs : h.state s = some o) (o' : StateObject R)
    (hs₁ : h₁.state s = some { o with fsm := o'.fsm }) (hp : o'.parent = o.parent) (hc : o'.c = o.c)
    (hlead : ∀ y, o'.LeadsTo y → o.LeadsTo y ∨ y = d) :
    (h₁.putState s (some o')).Valid ∧ Merging h (h₁.putState s (some o')) ∧
      ∀ f, (h.fsm f).isSome → ¬ h.Absorbed [(s, d)] f → ((h₁.putState s (some o')).fsm f).isSome := by
  have hsh : SameShape h₁ (h₁.putState s (some o')) := .putState hs₁ rfl hp hc
  have hm := hu.merging.trans (hsh.merging (putState_hooks _))
  refine ⟨hv.of_together (hsh.forest hu.forest) (fun _ _ => hm.together hv.toForest) (fun x ox y hx hy => ?_)
    (hsh.used (hu.used hv.used)), hm, fun _ => hu.not_absorbed⟩
  by_cases hxs : x = s
  · subst hxs
    rw [putState_state, Function.update_self, Option.some.injEq] at hx
    subst hx
    rcases hlead y hy with hy | rfl
    · exact .inl ⟨o, hs, hy⟩
    · exact .inr (hsh.together hu.together)
  · rw [putState_state, Function.update_of_ne hxs] at hx
    obtain ⟨o₀, f₀, ho₀, rfl⟩ := hu.of_state hx
    exact .inl ⟨o₀, ho₀, hy⟩

theorem addState_spec (hv : h.Valid) (hs : h.state s = some o) (hd : h.state d = some od)
    (hnew : b.asserts = true → d ∉ o.states) :
    ∃ h', (∃ n, ∀ fuel ≥ n, h.addState b fuel s d = some h') ∧ h'.Valid ∧ Merging h h' ∧
      ∀ f, (h.fsm f).isSome → ¬ h.Absorbed [(s, d)] f → (h'.fsm f).isSome := by
  obtain ⟨h₁, ⟨n, hn⟩, hu⟩ := unify_spec (b := b) hv.toForest hs hd
  obtain ⟨f, ho₁⟩ := hu.state_some hs
  refine ⟨_, ⟨n, fun fuel hfuel => ?_⟩,
    hu.putState hv hs { o with fsm := f, states := insert d o.states } ho₁ rfl rfl fun y hy => ?_⟩
  · rw [addState]
    refine Option.bind_eq_some_iff.mpr ⟨o, hs, Option.bind_eq_some_iff.mpr ⟨od, hd,
      Option.bind_eq_some_iff.mpr ⟨h₁, hn fuel hfuel, Option.bind_eq_some_iff.mpr ⟨_, ho₁,
      Option.bind_eq_some_iff.mpr ⟨(), ?_, rfl⟩⟩⟩⟩⟩
    rw [Build.assert, if_neg]
    intro h
    exact h.2 (hnew h.1)
  · simp only [StateObject.LeadsTo, Finset.mem_insert] at hy ⊢
    grind

theorem addCondState_spec (hv : h.Valid) (hs : h.state s = some o) (hd : h.state d = some od) (neg : Bool)
    (hnew : b.asserts = true → d ∉ o.condStates.map Prod.fst) :
    ∃ h', (∃ n, ∀ fuel ≥ n, h.addCondState b fuel s d neg = some h') ∧ h'.Valid ∧ Merging h h' ∧
      ∀ f, (h.fsm f).isSome → ¬ h.Absorbed [(s, d)] f → (h'.fsm f).isSome := by
  obtain ⟨h₁, ⟨n, hn⟩, hu⟩ := unify_spec (b := b) hv.toForest hs hd
  obtain ⟨f, ho₁⟩ := hu.state_some hs
  refine ⟨_, ⟨n, fun fuel hfuel => ?_⟩, hu.putState hv hs { o with
    fsm := f
    condStates := if d ∈ o.condStates.map Prod.fst then o.condStates else o.condStates ++ [(d, neg)] } ho₁ rfl rfl
    fun y hy => ?_⟩
  · rw [addCondState]
    refine Option.bind_eq_some_iff.mpr ⟨o, hs, Option.bind_eq_some_iff.mpr ⟨od, hd,
      Option.bind_eq_some_iff.mpr ⟨h₁, hn fuel hfuel, Option.bind_eq_some_iff.mpr ⟨_, ho₁,
      Option.bind_eq_some_iff.mpr ⟨(), ?_, rfl⟩⟩⟩⟩⟩
    rw [Build.assert, if_neg]
    intro h
    exact h.2 (hnew h.1)
  · simp only [StateObject.LeadsTo] at hy ⊢
    split at hy
    · exact .inl hy
    · simp only [List.map_append, List.map_cons, List.map_nil, List.mem_append, List.mem_singleton] at hy
      grind

theorem erased_belongs (hne : x ≠ f) : (h.erased f).belongs x c = h.belongs x c := by
  rw [Bool.eq_iff_iff, belongs_iff, belongs_iff]
  constructor
  · rintro ⟨o, ho, hfsm⟩
    exact ⟨o, (of_erased_state ho).1, hfsm⟩
  · rintro ⟨o, ho, hfsm⟩
    exact ⟨o, erased_state ho (hfsm ▸ hne), hfsm⟩

/-- The last release of an FSM deletes it and its states, another one changes neither. -/
theorem release_spec (hv : h.Valid) (hs : s ∈ h.ptrs) (ho : h.state s = some o) :
    ∃ h', (∃ n, ∀ fuel ≥ n, h.release b fuel s = some h') ∧ h'.Valid ∧
      (∀ f g', h'.fsm f = some g' → ∃ g, h.fsm f = some g ∧ g'.transitionHooks = g.transitionHooks) ∧
      (∀ x, h'.Live x → h.Live x) ∧ h'.next = h.next ∧
      (∀ f, f ≠ o.fsm ∨ (∃ s' ∈ h.ptrs.erase s, h.belongs o.fsm s' = true) →
        (h'.fsm f).isSome = (h.fsm f).isSome ∧ ∀ x, h'.belongs f x = h.belongs f x) ∧
      ((∀ s' ∈ h.ptrs.erase s, ¬ h.belongs o.fsm s' = true) →
        h'.fsm o.fsm = none ∧ ∀ x, h.belongs o.fsm x = true → h'.state x = none) := by
  obtain ⟨g, hg, _⟩ := hv.owner s o ho
  have hf := hv.toForest.released hs ho hg
  have hpos := hv.used _ g hg
  have hcount := countP_erase hs ho o.fsm
  rw [if_pos rfl, ← hv.counted _ g hg] at hcount
  have hlead : ∀ x ox d, h.state x = some ox → ox.LeadsTo d → ∃ od, h.state d = some od ∧ od.fsm = ox.fsm := by
    intro x ox d hx hd
    obtain ⟨ox', od, hx', hod, heq⟩ := hv.connected x ox d hx hd
    rw [hx, Option.some.injEq] at hx'
    exact ⟨od, hod, hx' ▸ heq⟩
  set h₁ : StateHeap R H := { h.putFsm o.fsm (some { g with useCount := g.useCount - 1 }) with ptrs := h.ptrs.erase s }
  have hfsm₁ : h₁.fsm = Function.update h.fsm o.fsm (some { g with useCount := g.useCount - 1 }) := rfl
  have hsome : ∀ f, (h₁.fsm f).isSome = (h.fsm f).isSome := by
    intro f
    by_cases hff : f = o.fsm
    · simp [hfsm₁, hff, hg]
    · simp [hfsm₁, hff]
  have hhooks : ∀ f g', h₁.fsm f = some g' → ∃ g, h.fsm f = some g ∧ g'.transitionHooks = g.transitionHooks := by
    intro f g' hg'
    by_cases hff : f = o.fsm
    · rw [hfsm₁, hff, Function.update_self, Option.some.injEq] at hg'
      exact ⟨g, hff ▸ hg, by rw [← hg']⟩
    · rw [hfsm₁, Function.update_of_ne hff] at hg'
      exact ⟨g', hg', rfl⟩
  by_cases hlast : g.useCount = 1
  · have hnone : ∀ s' ∈ h.ptrs.erase s, ¬ h.belongs o.fsm s' = true :=
      List.countP_eq_zero.mp (Nat.succ.inj (hcount.symm.trans hlast))
    obtain ⟨n, hn⟩ := deleteFsm_eq (b := b) (f := o.fsm) hf (by rw [hfsm₁, Function.update_self])
        (Nat.sub_eq_zero_of_le (Nat.le_of_eq hlast))
    refine ⟨h₁.erased o.fsm, ⟨n, fun fuel hfuel => ?_⟩, ⟨hf.erased hnone, fun x ox d hx hd => ?_, fun f g' hg' => ?_⟩,
      fun f g' hg' => ?_, fun x hx => ?_, rfl, fun f hff => ?_, fun _ => ⟨by simp [erased], fun x hx => ?_⟩⟩
    · rw [release]
      refine Option.bind_eq_some_iff.mpr ⟨o, ho, Option.bind_eq_some_iff.mpr ⟨g, hg,
        Option.bind_eq_some_iff.mpr ⟨(), b.assert_of (Nat.ne_of_gt hpos), ?_⟩⟩⟩
      rw [if_pos hlast]
      exact hn fuel hfuel
    · obtain ⟨hx₁, hne⟩ := of_erased_state hx
      obtain ⟨od, hod, heq⟩ := hlead x ox d hx₁ hd
      exact ⟨ox, od, hx, erased_state (show h₁.state d = some od from hod) (heq ▸ hne), heq⟩
    · by_cases hff : f = o.fsm
      · simp [erased, hff] at hg'
      · simp only [erased, hfsm₁, Function.update_of_ne hff] at hg'
        exact hv.used f g' hg'
    · by_cases hff : f = o.fsm
      · simp [erased, hff] at hg'
      · exact hhooks f g' (by simpa [erased, hff] using hg')
    · obtain ⟨ox, hox⟩ := Option.isSome_iff_exists.mp hx
      rw [Live, show h.state x = some ox from (of_erased_state hox).1]
      rfl
    · have hne : f ≠ o.fsm := hff.resolve_right fun hex => by
        obtain ⟨s', hs', hb⟩ := hex
        exact hnone s' hs' hb
      exact ⟨by simp [erased, hne, hsome f], fun x => erased_belongs hne⟩
    · obtain ⟨ox, hox, heq⟩ := belongs_iff.mp hx
      simp [erased, show h₁.state x = some ox from hox, heq, Option.filter]
  · refine ⟨h₁, ⟨0, fun fuel _ => ?_⟩, ⟨hf, fun x ox d hx hd => ?_, fun f g' hg' => ?_⟩,
      hhooks, fun _ hx => hx, rfl, fun f _ => ⟨hsome f, fun x => rfl⟩, fun hnone => ?_⟩
    · rw [release]
      refine Option.bind_eq_some_iff.mpr ⟨o, ho, Option.bind_eq_some_iff.mpr ⟨g, hg,
        Option.bind_eq_some_iff.mpr ⟨(), b.assert_of (Nat.ne_of_gt hpos), ?_⟩⟩⟩
      rw [if_neg hlast]
      rfl
    · obtain ⟨od, hod, heq⟩ := hlead x ox d hx hd
      exact ⟨ox, od, hx, hod, heq⟩
    · by_cases hff : f = o.fsm
      · rw [hfsm₁, hff, Function.update_self, Option.some.injEq] at hg'
        subst hg'
        simp only
        omega
      · rw [hfsm₁, Function.update_of_ne hff] at hg'
        exact hv.used f g' hg'
    · have := List.countP_eq_zero.mpr hnone
      omega

/-! ## Runs -/

/-- The operation releases the last pointer to a state of the FSM. -/
def LastRelease (h : StateHeap R H) (op : StateOp R H) (f : Nat) : Prop :=
  ∃ s, op = .release s ∧ h.belongs f s = true ∧ ∀ s' ∈ h.ptrs.erase s, ¬ h.belongs f s' = true

/-- All states of `f` are another FSM's in `h'`. -/
def MergedIn (h h' : StateHeap R H) (f : Nat) : Prop :=
  ∃ f', f' ≠ f ∧ (h.fsm f').isSome ∧ (h'.fsm f').isSome ∧ ∀ x, h.belongs f x = true → h'.belongs f' x = true

structure Fate (h h' : StateHeap R H) (op : StateOp R H) (f : Nat) : Prop where
  deleted : h'.fsm f = none ↔ h.LastRelease op f ∨ h.MergedIn h' f
  states : ∀ x, h.belongs f x = true → (h'.state x = none ↔ h.LastRelease op f)
  kept : (h'.fsm f).isSome → ∀ x, h.belongs f x = true → h'.belongs f x = true

/-- Hooks are added to FSMs, and those that no link merges keep theirs. -/
structure Hooked (h h' : StateHeap R H) (op : StateOp R H) : Prop where
  hooks : ∀ f g', h'.fsm f = some g' →
    (∃ g, h.fsm f = some g ∧ g'.transitionHooks = g.transitionHooks ++ h.hooksAdded f op) ∨
      h.fsm f = none ∧ g'.transitionHooks = []
  kept : ∀ f, (h.fsm f).isSome → ¬ h.Absorbed op.links f → ¬ h.LastRelease op f → (h'.fsm f).isSome
  born : ∀ x, h'.Live x → h.Live x ∨ h.next ≤ x
  next : h.next ≤ h'.next

theorem Merging.hooked {op : StateOp R H} (hm : Merging h h') (hadd : ∀ f, h.hooksAdded f op = [])
    (hkept : ∀ f, (h.fsm f).isSome → ¬ h.Absorbed op.links f → (h'.fsm f).isSome) : h.Hooked h' op where
  hooks f g' hg' := by
    obtain ⟨g, hg, heq⟩ := hm.old f g' hg'
    exact .inl ⟨g, hg, by rw [hadd, List.append_nil, heq]⟩
  kept f hf hnot _ := hkept f hf hnot
  born x hx := .inl (hm.born x hx)
  next := Nat.le_of_eq hm.next.symm

theorem Valid.exists_belongs (hv : h.Valid) (hg : h.fsm f = some g) : ∃ s, h.belongs f s = true := by
  have hpos := hv.used f g hg
  rw [hv.counted f g hg, List.countP_pos_iff] at hpos
  obtain ⟨s, _, hb⟩ := hpos
  exact ⟨s, hb⟩

theorem Valid.fate_of_moved (hv : h.Valid) {op : StateOp R H} (hop : ¬ h.LastRelease op f) (hf : (h.fsm f).isSome)
    (hm : ∃ f', (h.fsm f').isSome ∧ (h'.fsm f').isSome ∧ (∀ x, h.belongs f x = true → h'.belongs f' x = true) ∧
      ((h'.fsm f).isSome → f' = f)) : h.Fate h' op f := by
  obtain ⟨f', hf₀, hf', hx, heq⟩ := hm
  obtain ⟨g, hg⟩ := Option.isSome_iff_exists.mp hf
  constructor
  · rw [or_iff_right hop]
    constructor
    · intro hnone
      refine ⟨f', fun hff => ?_, hf₀, hf', hx⟩
      rw [hff, hnone] at hf'
      cases hf'
    · rintro ⟨f₂, hne, _, _, hx₂⟩
      obtain ⟨s, hs⟩ := hv.exists_belongs hg
      by_contra hsome
      exact hne ((belongs_unique (hx₂ s hs) (hx s hs)).trans (heq (Option.isSome_iff_ne_none.mpr hsome)))
  · intro x hb
    refine iff_of_false (fun hnone => ?_) hop
    obtain ⟨o, ho, _⟩ := belongs_iff.mp (hx x hb)
    rw [hnone] at ho
    cases ho
  · exact fun hsome x hb => heq hsome ▸ hx x hb

theorem Merging.fate (hm : Merging h h') (hv : h.Valid) {op : StateOp R H} (hop : ¬ h.LastRelease op f)
    (hf : (h.fsm f).isSome) : h.Fate h' op f := by
  obtain ⟨f', hf', hx, heq⟩ := hm.moved f hf
  exact hv.fate_of_moved hop hf ⟨f', hm.isSome hf', hf', hx, heq⟩

theorem not_lastRelease {op : StateOp R H} (hop : ∀ s, op ≠ .release s) : ¬ h.LastRelease op f :=
  fun ⟨s, heq, _⟩ => hop s heq

theorem step_spec (hv : h.Valid) {op : StateOp R H} (hop : h.Allowed b op) :
    ∃ h', h.Completes b op h' ∧ h'.Valid ∧ (∀ f, (h.fsm f).isSome → h.Fate h' op f) ∧ h.Hooked h' op := by
  cases op with
  | construct kind =>
    obtain ⟨h', heq, hv', hnext, hkeep, hhooks, hborn⟩ := construct_spec hv kind
    refine ⟨h', ⟨0, fun _ _ => heq⟩, hv', fun f hf => hv.fate_of_moved (not_lastRelease (by simp)) hf ?_,
      fun f g' hg' => (hhooks f g' hg').imp_left fun ⟨g, hg, heq⟩ => ⟨g, hg, heq.trans (List.append_nil _).symm⟩,
      fun f hf _ _ => (hkeep f hf).1, hborn, hnext ▸ Nat.le_add_right _ _⟩
    obtain ⟨hsome, hb⟩ := hkeep f hf
    exact ⟨f, hf, hsome, fun x hx => (hb x).trans hx, fun _ => rfl⟩
  | addTransition s stl =>
    obtain ⟨h', heq, hv', hm, hkept⟩ := addTransitions_spec (b := b) stl hv hop.1 hop.2
    exact ⟨h', heq, hv', fun f => hm.fate hv (not_lastRelease (by simp)), hm.hooked (fun _ => rfl) hkept⟩
  | clearTransition s =>
    obtain ⟨h', heq, hv', hm, hfsm⟩ := clearTransition_spec hv hop
    exact ⟨h', ⟨0, fun _ _ => heq⟩, hv', fun f => hm.fate hv (not_lastRelease (by simp)),
      hm.hooked (fun _ => rfl) fun f hf _ => hfsm ▸ hf⟩
  | add t s isInit =>
    obtain ⟨o, os, ho, hos, _, _, hroot, hnot⟩ := hop
    obtain ⟨h', heq, hv', hm, hkept⟩ := add_spec (b := b) hv isInit ho hos hroot hnot
    exact ⟨h', heq, hv', fun f => hm.fate hv (not_lastRelease (by simp)), hm.hooked (fun _ => rfl) hkept⟩
  | addState m s =>
    obtain ⟨o, os, ho, hos, _, _, hnew⟩ := hop
    obtain ⟨h', heq, hv', hm, hkept⟩ := addState_spec (b := b) hv ho hos hnew
    exact ⟨h', heq, hv', fun f => hm.fate hv (not_lastRelease (by simp)), hm.hooked (fun _ => rfl) hkept⟩
  | addCondState m s neg =>
    obtain ⟨o, os, ho, hos, _, _, hnew⟩ := hop
    obtain ⟨h', heq, hv', hm, hkept⟩ := addCondState_spec (b := b) hv ho hos neg hnew
    exact ⟨h', heq, hv', fun f => hm.fate hv (not_lastRelease (by simp)), hm.hooked (fun _ => rfl) hkept⟩
  | acquire s =>
    obtain ⟨h', heq, hv', hm, hsome⟩ := acquire_valid hv hop
    exact ⟨h', ⟨0, fun _ _ => heq⟩, hv', fun f => hm.fate hv (not_lastRelease (by simp)),
      hm.hooked (fun _ => rfl) fun f hf _ => (hsome f).trans hf⟩
  | addTransitionHook s hook =>
    obtain ⟨h', heq, hv', hsh, hhooks⟩ := addTransitionHook_spec hv hop hook
    have hsome : ∀ f, (h'.fsm f).isSome = (h.fsm f).isSome := fun f => by
      rw [← Option.isSome_map, hsh.fsm f, Option.isSome_map]
    refine ⟨h', ⟨0, fun _ _ => heq⟩, hv', fun f hf => hv.fate_of_moved (not_lastRelease (by simp)) hf
        ⟨f, hf, (hsome f).trans hf, fun x hx => hsh.belongs.trans hx, fun _ => rfl⟩,
      fun f g' hg' => .inl (hhooks f g' hg'), fun f hf _ _ => (hsome f).trans hf, fun x hx => .inl ?_, Nat.le_of_eq hsh.next.symm⟩
    obtain ⟨f, hf⟩ := live_iff.mp hx
    exact live_iff.mpr ⟨f, hsh.belongs.symm.trans hf⟩
  | release s =>
    obtain ⟨o, ho⟩ := Option.isSome_iff_exists.mp (hv.held s hop)
    obtain ⟨h', heq, hv', hhooks, hborn, hnext, hkeep, hlast⟩ := release_spec (b := b) hv hop ho
    have hother : ∀ f, ¬ h.LastRelease (.release s) f →
        (h'.fsm f).isSome = (h.fsm f).isSome ∧ ∀ x, h'.belongs f x = h.belongs f x := by
      intro f hl
      refine hkeep f ?_
      by_contra hnot
      simp only [not_or, not_not, not_exists, not_and] at hnot
      obtain ⟨rfl, hnone⟩ := hnot
      exact hl ⟨s, rfl, belongs_self ho, hnone⟩
    refine ⟨h', heq, hv', fun f hf => ?_, fun f g' hg' => .inl ?_, fun f hf _ hl => (hother f hl).1.trans hf,
      fun x hx => .inl (hborn x hx), Nat.le_of_eq hnext.symm⟩
    · by_cases hl : h.LastRelease (.release s) f
      · have hl' := hl
        obtain ⟨_, heq, hb, hnone⟩ := hl
        cases heq
        obtain rfl := belongs_unique hb (belongs_self ho)
        obtain ⟨hgone, hstates⟩ := hlast hnone
        refine ⟨iff_of_true hgone (.inl hl'), fun x hx => iff_of_true (hstates x hx) hl', fun hsome => ?_⟩
        rw [hgone] at hsome
        cases hsome
      · obtain ⟨hsome, hx⟩ := hother f hl
        exact hv.fate_of_moved hl hf ⟨f, hf, hsome.trans hf, fun x hb => (hx x).trans hb, fun _ => rfl⟩
    · obtain ⟨g, hg, heq⟩ := hhooks f g' hg'
      exact ⟨g, hg, heq.trans (List.append_nil _).symm⟩

theorem Completes.unique {op : StateOp R H} (hc : h.Completes b op h₁) (hc' : h.Completes b op h₂) : h₁ = h₂ := by
  obtain ⟨n, hn⟩ := hc
  obtain ⟨n', hn'⟩ := hc'
  exact Option.some.inj ((hn _ (Nat.le_max_left n n')).symm.trans (hn' _ (Nat.le_max_right n n')))

theorem valid_empty : (empty : StateHeap R H).Valid where
  owner _ _ h := nomatch h
  listed _ _ _ h := nomatch h
  child _ _ _ h := nomatch h
  parent _ _ _ h := nomatch h
  nodup _ _ h := nomatch h
  counted _ _ h := nomatch h
  held _ h := nomatch h
  fresh _ _ := ⟨rfl, rfl⟩
  layered := ⟨fun _ => 0, 0, fun _ _ h => nomatch h⟩
  connected _ _ _ h := nomatch h
  used _ _ h := nomatch h

theorem valid_of_run (hrun : Relation.ReflTransGen (Step b) empty h) : h.Valid := by
  induction hrun with
  | refl => exact valid_empty
  | tail _ hstep ih =>
    obtain ⟨op, hop, hc⟩ := hstep
    obtain ⟨h', hc', hv, _, _⟩ := step_spec ih hop
    exact hc.unique hc' ▸ hv

structure Owned (h : StateHeap R H) : Prop where
  owner : ∀ s o, h.state s = some o → ∀ f, (∃ g, h.fsm f = some g ∧ ∃ r ∈ g.states, h.Below r s) ↔ f = o.fsm
  listed_once : ∀ f f' g g' s, h.fsm f = some g → h.fsm f' = some g' → s ∈ g.states → s ∈ g'.states → f = f'
  not_contained : ∀ f g s t, h.fsm f = some g → s ∈ g.states → ¬ h.Child t s
  counted : ∀ f g, h.fsm f = some g → g.useCount = h.ptrs.countP (h.belongs f) ∧ 0 < g.useCount
  held : ∀ s ∈ h.ptrs, ∃ o g, h.state s = some o ∧ h.fsm o.fsm = some g
  connected : ∀ s o d, h.state s = some o → (d ∈ o.c ∨ o.LeadsTo d) → h.Together s d

theorem Valid.owned (hv : h.Valid) : h.Owned where
  owner s o ho f := by
    constructor
    · rintro ⟨g, hg, hb⟩
      obtain ⟨o', ho', hfsm⟩ := (hv.below_listed_iff hg).mp hb
      rw [ho, Option.some.injEq] at ho'
      rw [ho', hfsm]
    · rintro rfl
      obtain ⟨g, hg, _⟩ := hv.toForest.owner s o ho
      exact ⟨g, hg, (hv.below_listed_iff hg).mpr ⟨o, ho, rfl⟩⟩
  listed_once f f' g g' s hg hg' hs hs' := by
    obtain ⟨o, ho, hfsm⟩ := hv.listed f g s hg hs
    obtain ⟨o', ho', hfsm'⟩ := hv.listed f' g' s hg' hs'
    rw [ho, Option.some.injEq] at ho'
    rw [← hfsm, ho', hfsm']
  not_contained f g s t hg hs hc := by
    obtain ⟨o, ho, hfsm⟩ := hv.listed f g s hg hs
    obtain ⟨g', hg', hiff⟩ := hv.toForest.owner s o ho
    rw [hfsm, hg, Option.some.injEq] at hg'
    subst hg'
    obtain ⟨o', ho', hp⟩ := hv.child_iff.mp hc
    rw [ho, Option.some.injEq] at ho'
    rw [← ho', hiff.mp hs] at hp
    cases hp
  counted f g hg := ⟨hv.toForest.counted f g hg, hv.used f g hg⟩
  held s hs := by
    obtain ⟨o, ho⟩ := Option.isSome_iff_exists.mp (hv.toForest.held s hs)
    obtain ⟨g, hg, _⟩ := hv.toForest.owner s o ho
    exact ⟨o, g, ho, hg⟩
  connected s o d ho hd := by
    rcases hd with hc | hd
    · exact hv.child_together ⟨o, ho, hc⟩
    · exact Valid.connected hv s o d ho hd

/-- A firing state is added to an XOR state, which merges their FSMs, and only the pointer to it is kept. -/
theorem exists_contained : ∃ h : StateHeap Nat Nat, Relation.ReflTransGen (Step Build.checked) empty h ∧ h.ptrs = [3] ∧
    (h.fsm 0).isSome ∧ h.fsm 2 = none ∧ h.Child 1 3 ∧ h.belongs 0 1 = true ∧ h.belongs 0 3 = true := by
  obtain ⟨h, hrun, h₁, h₃, hf₀, hf₂, hptrs⟩ : ∃ h : StateHeap Nat Nat, Relation.ReflTransGen (Step Build.checked) empty h ∧
      h.state 1 = some ⟨.xor, 0, [], none, [], none, ∅, []⟩ ∧ h.state 3 = some ⟨.firing, 2, [], none, [], none, ∅, []⟩ ∧
      h.fsm 0 = some ⟨{1}, 1, []⟩ ∧ h.fsm 2 = some ⟨{3}, 1, []⟩ ∧ h.ptrs = [3, 1] := by
    refine ⟨_, .tail (.tail .refl ⟨.construct .xor, trivial, 0, fun _ _ => rfl⟩)
      ⟨.construct .firing, trivial, 0, fun _ _ => rfl⟩, ?_⟩
    exact ⟨rfl, rfl, rfl, rfl, rfl⟩
  have hnot : ¬ h.Below 3 1 := by
    rw [below_iff h₃]
    simp
  obtain ⟨n, hn⟩ := unify_eq (b := Build.checked) (valid_of_run hrun).toForest (by decide) hf₀ hf₂
  set hm := h.merged 0 2 ⟨{1}, 1, []⟩ ⟨{3}, 1, []⟩
  have hs₁ : hm.state 1 = some ⟨.xor, 0, [], none, [], none, ∅, []⟩ := merged_state h₁
  have hs₃ : hm.state 3 = some ⟨.firing, 0, [], none, [], none, ∅, []⟩ := merged_state h₃
  have hg : hm.fsm 0 = some ⟨{1, 3}, 2, []⟩ := merged_fsm
  set ha := ((hm.putFsm 0 (some ⟨({1, 3} : Finset Nat).erase 3, 2, []⟩)).putState 1
    (some ⟨.xor, 0, [], none, [3], some 3, ∅, []⟩)).putState 3 (some ⟨.firing, 0, [], some 1, [], none, ∅, []⟩)
  have hadd : h.Completes Build.checked (.add 1 3 true) ha := by
    refine ⟨n, fun fuel hfuel => ?_⟩
    simp only [step, add, h₁, h₃, Option.bind_eq_bind, Option.bind_some, hn fuel hfuel, hs₁, hs₃, hg, putState_state,
      putFsm_state, Function.update_apply]
    rfl
  have hrun' : Relation.ReflTransGen (Step Build.checked) empty ha :=
    hrun.tail ⟨.add 1 3 true, ⟨_, _, h₁, h₃, .inl rfl, trivial, rfl, hnot⟩, hadd⟩
  refine ⟨_, hrun'.tail ⟨.release 1, ?_, 0, fun fuel _ => rfl⟩, ?_⟩
  · change 1 ∈ h.ptrs
    simp [hptrs]
  · refine ⟨?_, rfl, rfl, ⟨_, rfl, List.mem_singleton_self 3⟩, rfl, rfl⟩
    change h.ptrs.erase 1 = [3]
    rw [hptrs]
    rfl

/-- After any run the states are owned, and each further operation completes and
deletes what it should. -/
theorem run_owned (b : Build) (h : StateHeap R H) (hrun : Relation.ReflTransGen (Step b) empty h) :
    h.Owned ∧ ∀ op, h.Allowed b op → (∃ h', h.Completes b op h') ∧
      ∀ h', h.Completes b op h' → ∀ f, (h.fsm f).isSome → h.Fate h' op f := by
  have hv := valid_of_run hrun
  refine ⟨hv.owned, fun op hop => ?_⟩
  obtain ⟨h', hc, _, hfate, _⟩ := step_spec hv hop
  refine ⟨⟨h', hc⟩, fun h'' hc' => ?_⟩
  rw [hc'.unique hc]
  exact hfate

/-- The merged FSM goes with the pointer to the inner state, and both states with it. -/
theorem run_owned_two : ∃ h : StateHeap Nat Nat, Relation.ReflTransGen (Step Build.checked) empty h ∧ h.Owned ∧
    h.fsm 2 = none ∧ h.Child 1 3 ∧ h.ptrs = [3] ∧
    ∃ h', h.Completes Build.checked (.release 3) h' ∧ h'.fsm 0 = none ∧ h'.state 1 = none ∧ h'.state 3 = none := by
  obtain ⟨h, hrun, hptrs, hsome, hnone, hchild, h₁, h₃⟩ := exists_contained
  obtain ⟨howned, hall⟩ := run_owned Build.checked h hrun
  obtain ⟨⟨h', hc⟩, hfate⟩ := hall (.release 3) (by simp [Allowed, hptrs])
  have hlast : h.LastRelease (.release 3) 0 := ⟨3, rfl, h₃, by simp [hptrs]⟩
  have hf := hfate h' hc 0 hsome
  exact ⟨h, hrun, howned, hnone, hchild, hptrs, h', hc, hf.deleted.mpr (.inl hlast), (hf.states 1 h₁).mpr hlast,
    (hf.states 3 h₃).mpr hlast⟩

end StateHeap

end SysteMoC
