import Mathlib.Logic.Relation
import SysteMoC.FiringFSM

/-!
# The meaning of hierarchical states

Configurations, activity, the states a transition enters and the step between
configurations, in terms of the tree alone.
-/

namespace SysteMoC

namespace StateTree

def Active (s : ProdState) (q : StatePath) : Prop := ∃ l ∈ s, q <:+ l

instance (s : ProdState) (q : StatePath) : Decidable (Active s q) := inferInstanceAs (Decidable (∃ l ∈ s, q <:+ l))

structure IsConfig (t : StateTree) (s : ProdState) : Prop where
  leaf : ∀ l ∈ s, t.sub l = some .firing
  top : Active s []
  xor : ∀ r n init c, t.sub r = some (.xor n init c) → Active s r → ∃! i, Active s (i :: r)
  and : ∀ r n c, t.sub r = some (.and n c) → Active s r → ∀ i < n, Active s (i :: r)

def Marked (D : List StatePath) (q : StatePath) : Prop := ∃ d ∈ D, q <:+ d

/-- From `r` its child `r'` is entered: any child of an AND state, of an XOR state a
marked child or, where none is marked, the initial one. -/
def Enters (t : StateTree) (D : List StatePath) (r r' : StatePath) : Prop :=
  ∃ i, r' = i :: r ∧ (t.sub r').isSome ∧ ∀ n init c, t.sub r = some (.xor n init c) →
    Marked D (i :: r) ∨ init.map Fin.val = some i ∧ ∀ j, ¬ Marked D (j :: r)

def Entered (t : StateTree) (D : List StatePath) : StatePath → StatePath → Prop := Relation.ReflTransGen (Enters t D)

/-- Two children of an entered XOR state are marked. -/
def Ambiguous (t : StateTree) (D : List StatePath) (x : StatePath) : Prop :=
  ∃ r n init c i j, Entered t D x r ∧ t.sub r = some (.xor n init c) ∧ i ≠ j ∧ Marked D (i :: r) ∧ Marked D (j :: r)

/-- The least common ancestor-or-self. -/
structure IsScope (p : StatePath) (D : List StatePath) (x : StatePath) : Prop where
  src : x <:+ p
  dest : ∀ d ∈ D, x <:+ d
  greatest : ∀ y, y <:+ p → (∀ d ∈ D, y <:+ d) → y <:+ x

end StateTree

namespace ExpandedTransition

open StateTree

variable {R : Type}

def Active (tr : ExpandedTransition R) (s : ProdState) : Prop :=
  StateTree.Active s tr.src ∧ ∀ c ∈ tr.conds, if c.2 then ¬ StateTree.Active s c.1 else StateTree.Active s c.1

instance (tr : ExpandedTransition R) (s : ProdState) : Decidable (tr.Active s) := by
  unfold Active
  infer_instance

/-- The transition leads from one partition of an AND state into another. -/
def Crosses (t : StateTree) (tr : ExpandedTransition R) (x : StatePath) : Prop :=
  (∃ n c, t.sub x = some (.and n c)) ∧ x ≠ tr.src ∧ x ∉ tr.dest

/-- The leaves outside the scope stay, those entered below it are added. -/
def Step (t : StateTree) (tr : ExpandedTransition R) (s s' : ProdState) : Prop :=
  tr.Active s ∧ ∃ x, IsScope tr.src tr.dest x ∧ ¬ tr.Crosses t x ∧ ¬ Ambiguous t tr.dest x ∧
    ∀ l, l ∈ s' ↔ t.sub l = some .firing ∧ Entered t tr.dest x l ∨ l ∈ s ∧ ¬ x <:+ l

end ExpandedTransition

namespace StateTree

variable {t u : StateTree} {p q r x l : StatePath} {i : Nat} {D : List StatePath}

/-! ## States of the tree -/

theorem sub_cons (h : (t.sub (i :: p)).isSome) : ∃ u, t.sub p = some u ∧ i < u.numChildren := by
  rw [sub] at h
  cases hp : t.sub p with
  | none => rw [hp] at h; cases h
  | some u =>
    refine ⟨u, rfl, ?_⟩
    rw [hp, Option.bind_some] at h
    cases u with
    | firing => cases h
    | xor n init c | and n c =>
      rw [child?] at h
      split at h
      · assumption
      · cases h

theorem sub_xor {n : Nat} {init : Option (Fin n)} {c : Fin n → StateTree} (h : t.sub p = some (.xor n init c))
    (hi : i < n) : t.sub (i :: p) = some (c ⟨i, hi⟩) := by
  rw [sub, h, Option.bind_some, child?, dif_pos hi]

theorem sub_and {n : Nat} {c : Fin n → StateTree} (h : t.sub p = some (.and n c)) (hi : i < n) :
    t.sub (i :: p) = some (c ⟨i, hi⟩) := by
  rw [sub, h, Option.bind_some, child?, dif_pos hi]

theorem sub_of_suffix (h : q <:+ p) (hp : (t.sub p).isSome) : (t.sub q).isSome := by
  induction p with
  | nil => rwa [List.suffix_nil.mp h]
  | cons i p ih =>
    rcases List.suffix_cons_iff.mp h with rfl | h
    · exact hp
    · obtain ⟨u, hu, _⟩ := sub_cons hp
      exact ih h (by rw [hu]; rfl)

theorem eq_of_leaf_suffix (hl : t.sub l = some .firing) (h : l <:+ p) (hp : (t.sub p).isSome) : p = l := by
  induction p with
  | nil => exact (List.suffix_nil.mp h).symm
  | cons i p ih =>
    rcases List.suffix_cons_iff.mp h with heq | h
    · exact heq.symm
    · obtain ⟨u, hu, hi⟩ := sub_cons hp
      have := ih h (by rw [hu]; rfl)
      rw [this, hl, Option.some.injEq] at hu
      subst hu
      cases hi

/-! ## Entered states -/

theorem Enters.sub (h : Enters t D r q) : (t.sub q).isSome := by
  obtain ⟨i, _, hs, _⟩ := h
  exact hs

theorem Entered.suffix (h : Entered t D x r) : x <:+ r := by
  induction h with
  | refl => exact List.suffix_refl _
  | tail _ hstep ih =>
    obtain ⟨i, rfl, _⟩ := hstep
    exact List.suffix_cons_iff.mpr (.inr ih)

theorem Entered.between (h : Entered t D x r) (hq : q <:+ r) (hx : x <:+ q) : Entered t D x q := by
  induction h with
  | refl =>
    have := List.IsSuffix.eq_of_length_le hq hx.length_le
    exact this ▸ .refl
  | tail hr hstep ih =>
    obtain ⟨i, rfl, hs, hc⟩ := hstep
    rcases List.suffix_cons_iff.mp hq with rfl | hq
    · exact hr.tail ⟨i, rfl, hs, hc⟩
    · exact ih hq

theorem Entered.enters (h : Entered t D x (i :: r)) (hx : x <:+ r) : Enters t D r (i :: r) := by
  rcases Relation.ReflTransGen.cases_tail h with heq | ⟨r', _, hstep⟩
  · subst heq
    have hlen := hx.length_le
    rw [List.length_cons] at hlen
    omega
  · obtain ⟨j, heq, hs, hc⟩ := hstep
    cases heq
    exact ⟨i, rfl, hs, hc⟩

/-- Every composite state has a child, and every XOR state an initial one. -/
structure Complete (t : StateTree) : Prop where
  child : ∀ p u, t.sub p = some u → u.numChildren = 0 → u = .firing
  init : ∀ p n init c, t.sub p = some (.xor n init c) → init.isSome

/-- The destinations are states of the tree. -/
def Valid (t : StateTree) (D : List StatePath) : Prop := ∀ d ∈ D, (t.sub d).isSome

theorem Marked.sub (h : Marked D q) (hD : t.Valid D) : (t.sub q).isSome := by
  obtain ⟨d, hd, hq⟩ := h
  exact sub_of_suffix hq (hD d hd)

theorem exists_enters_xor {n : Nat} {init : Option (Fin n)} {c : Fin n → StateTree} (h : t.Complete) (hD : t.Valid D)
    (hr : t.sub r = some (.xor n init c)) : ∃ i, Enters t D r (i :: r) := by
  by_cases hm : ∃ j, Marked D (j :: r)
  · obtain ⟨j, hj⟩ := hm
    exact ⟨j, j, rfl, hj.sub hD, fun _ _ _ _ => .inl hj⟩
  · obtain ⟨i, hi⟩ := Option.isSome_iff_exists.mp (h.init _ _ _ _ hr)
    refine ⟨i.val, i.val, rfl, ?_, fun n' init' c' hr' => ?_⟩
    · rw [sub_xor hr i.isLt]
      rfl
    · rw [hr, Option.some.injEq] at hr'
      cases hr'
      exact .inr ⟨by rw [hi]; rfl, fun j hj => hm ⟨j, hj⟩⟩

theorem exists_leaf (h : t.Complete) (hD : t.Valid D) (hr : t.sub r = some u) :
    ∃ l, t.sub l = some .firing ∧ Entered t D r l := by
  induction u generalizing r with
  | firing => exact ⟨r, hr, .refl⟩
  | xor n init c ih =>
    obtain ⟨i, hi⟩ := exists_enters_xor h hD hr
    obtain ⟨_, hu, hlt⟩ := sub_cons hi.sub
    rw [hr, Option.some.injEq] at hu
    subst hu
    obtain ⟨l, hl, hent⟩ := ih ⟨i, hlt⟩ (sub_xor hr hlt)
    exact ⟨l, hl, Relation.ReflTransGen.head hi hent⟩
  | and n c ih =>
    have hn : 0 < n := by
      by_contra hn
      have := h.child r _ hr (Nat.eq_zero_of_not_pos hn)
      cases this
    have hs := sub_and hr hn
    obtain ⟨l, hl, hent⟩ := ih ⟨0, hn⟩ hs
    refine ⟨l, hl, Relation.ReflTransGen.head ⟨0, rfl, by rw [hs]; rfl, fun _ _ _ hr' => ?_⟩ hent⟩
    rw [hr] at hr'
    cases hr'

/-! ## Steps keep configurations -/

section
variable {s s' : ProdState} {u : StateTree}

theorem active_iff (h : t.Complete) (hD : t.Valid D) (hx : t.sub x = some u) (hs : x ≠ [] → Active s x)
    (hs' : ∀ l, l ∈ s' ↔ t.sub l = some .firing ∧ Entered t D x l ∨ l ∈ s ∧ ¬ x <:+ l) (q : StatePath) :
    Active s' q ↔ if x <:+ q then Entered t D x q else Active s q := by
  by_cases hq : x <:+ q
  · rw [if_pos hq]
    constructor
    · rintro ⟨l, hl, hql⟩
      rcases (hs' l).mp hl with ⟨_, hent⟩ | ⟨_, hnot⟩
      · exact hent.between hql hq
      · exact absurd (hq.trans hql) hnot
    · intro hent
      have hsub : (t.sub q).isSome := by
        rcases Relation.ReflTransGen.cases_tail hent with rfl | ⟨_, _, hstep⟩
        · rw [hx]; rfl
        · exact hstep.sub
      obtain ⟨v, hv⟩ := Option.isSome_iff_exists.mp hsub
      obtain ⟨l, hl, hent'⟩ := exists_leaf h hD hv
      exact ⟨l, (hs' l).mpr (.inl ⟨hl, hent.trans hent'⟩), hent'.suffix⟩
  · rw [if_neg hq]
    have hne : x ≠ [] := by
      rintro rfl
      exact hq (List.nil_suffix)
    obtain ⟨lx, hlx, hxl⟩ := hs hne
    constructor
    · rintro ⟨l, hl, hql⟩
      rcases (hs' l).mp hl with ⟨_, hent⟩ | ⟨hl, _⟩
      · rcases List.suffix_or_suffix_of_suffix hql hent.suffix with hqx | hxq
        · exact ⟨lx, hlx, hqx.trans hxl⟩
        · exact absurd hxq hq
      · exact ⟨l, hl, hql⟩
    · rintro ⟨l, hl, hql⟩
      by_cases hxl' : x <:+ l
      · obtain ⟨l', hl', hent⟩ := exists_leaf h hD hx
        refine ⟨l', (hs' l').mpr (.inl ⟨hl', hent⟩), ?_⟩
        rcases List.suffix_or_suffix_of_suffix hql hxl' with hqx | hxq
        · exact hqx.trans hent.suffix
        · exact absurd hxq hq
      · exact ⟨l, (hs' l).mpr (.inr ⟨hl, hxl'⟩), hql⟩

theorem suffix_cons_of_not (hr : ¬ x <:+ r) : x <:+ i :: r ↔ x = i :: r := by
  rw [List.suffix_cons_iff]
  exact or_iff_left hr

theorem isConfig_entered (h : t.Complete) (hD : t.Valid D) (hx : t.sub x = some u) (hamb : ¬ Ambiguous t D x)
    (hs : x ≠ [] → IsConfig t s ∧ Active s x)
    (hs' : ∀ l, l ∈ s' ↔ t.sub l = some .firing ∧ Entered t D x l ∨ l ∈ s ∧ ¬ x <:+ l) : IsConfig t s' := by
  have hact := active_iff h hD hx (fun hne => (hs hne).2) hs'
  have hne : ∀ r, ¬ x <:+ r → x ≠ [] := by
    rintro r hr rfl
    exact hr List.nil_suffix
  constructor
  · intro l hl
    rcases (hs' l).mp hl with ⟨hl, _⟩ | ⟨hl, hnot⟩
    · exact hl
    · exact (hs (hne l hnot)).1.leaf l hl
  · rw [hact]
    split
    · rename_i hnil
      rw [List.suffix_nil.mp hnil]
      exact .refl
    · rename_i hnil
      exact (hs (hne _ hnil)).1.top
  · intro r n init c hr hactive
    rw [hact] at hactive
    by_cases hxr : x <:+ r
    · rw [if_pos hxr] at hactive
      have hchild : ∀ i, Active s' (i :: r) ↔ Enters t D r (i :: r) := by
        intro i
        rw [hact, if_pos (List.suffix_cons_iff.mpr (.inr hxr))]
        exact ⟨fun hent => hent.enters hxr, fun hstep => hactive.tail hstep⟩
      obtain ⟨i, hi⟩ := exists_enters_xor h hD hr
      refine ⟨i, (hchild i).mpr hi, fun j hj => ?_⟩
      obtain ⟨j', heq, _, hcj⟩ := (hchild j).mp hj
      cases heq
      obtain ⟨i', heq, _, hci⟩ := hi
      cases heq
      rcases hcj n init c hr with hmj | ⟨hj, hnone⟩
      · rcases hci n init c hr with hmi | ⟨_, hnone⟩
        · by_contra hij
          exact hamb ⟨r, n, init, c, j, i, hactive, hr, hij, hmj, hmi⟩
        · exact absurd hmj (hnone j)
      · rcases hci n init c hr with hmi | ⟨hi, _⟩
        · exact absurd hmi (hnone i)
        · rw [hj, Option.some.injEq] at hi
          exact hi
    · rw [if_neg hxr] at hactive
      obtain ⟨hconf, hax⟩ := hs (hne r hxr)
      obtain ⟨i, hi, huniq⟩ := hconf.xor r n init c hr hactive
      -- a child that is entered anew was the active one before
      have hchild : ∀ j, Active s' (j :: r) ↔ Active s (j :: r) := by
        intro j
        rw [hact]
        split
        · rename_i hxj
          have hxj := (suffix_cons_of_not hxr).mp hxj
          subst hxj
          exact ⟨fun _ => hax, fun _ => .refl⟩
        · exact Iff.rfl
      exact ⟨i, (hchild i).mpr hi, fun j hj => huniq j ((hchild j).mp hj)⟩
  · intro r n c hr hactive i hi
    rw [hact] at hactive ⊢
    have hs := hs
    by_cases hxr : x <:+ r
    · rw [if_pos hxr] at hactive
      rw [if_pos (List.suffix_cons_iff.mpr (.inr hxr))]
      refine hactive.tail ⟨i, rfl, by rw [sub_and hr hi]; rfl, fun _ _ _ hr' => ?_⟩
      rw [hr] at hr'
      cases hr'
    · rw [if_neg hxr] at hactive
      split
      · rename_i hxi
        rw [(suffix_cons_of_not hxr).mp hxi]
        exact .refl
      · exact (hs (hne r hxr)).1.and r n c hr hactive i hi

end

end StateTree

end SysteMoC
