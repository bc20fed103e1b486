import Mathlib.Tactic.Ring
import SysteMoC.Hierarchy

/-!
# Flattening implements the hierarchy

Marking, entry and the search for the scope compute what the tree means, and
the worklist finds the reachable configurations with their transitions.
-/

namespace SysteMoC

namespace StateTree

variable {t u : StateTree} {p q r x l : StatePath} {D : List StatePath} {m : Finset StatePath}

/-! ## Marking -/

theorem mem_mark (hm : ∀ q ∈ m, q <:+ p → ∀ r, r <:+ q → r ∈ m) : q ∈ mark p m ↔ q ∈ m ∨ q <:+ p := by
  induction p generalizing m with
  | nil => rw [mark, Finset.mem_insert, List.suffix_nil, or_comm]
  | cons i p ih =>
    rw [mark]
    split
    · rename_i hp
      exact ⟨.inl, fun h => h.elim id (hm _ hp (List.suffix_refl _) q)⟩
    · rw [ih, Finset.mem_insert, List.suffix_cons_iff, or_comm (a := q = i :: p), or_assoc]
      intro q' hq' hqp r hr
      rcases Finset.mem_insert.mp hq' with rfl | hq'
      · have hlen := hqp.length_le
        rw [List.length_cons] at hlen
        omega
      · exact Finset.mem_insert_of_mem (hm q' hq' (List.suffix_cons_iff.mpr (.inr hqp)) r hr)

theorem mem_markStates : q ∈ markStates D ↔ Marked D q := by
  have hfold : ∀ (D : List StatePath) (m : Finset StatePath), (∀ q ∈ m, ∀ r, r <:+ q → r ∈ m) →
      (q ∈ D.foldl (fun m p => mark p m) m ↔ q ∈ m ∨ Marked D q) := by
    intro D
    induction D with
    | nil => simp [Marked]
    | cons d D ih =>
      intro m hm
      have hd : ∀ q, q ∈ mark d m ↔ q ∈ m ∨ q <:+ d := fun q => mem_mark fun q' hq' _ => hm q' hq'
      rw [List.foldl_cons, ih, hd, or_assoc]
      · simp [Marked]
      · intro q' hq' r hr
        rw [hd] at hq' ⊢
        exact hq'.imp (fun h => hm q' h r hr) fun h => hr.trans h
  rw [markStates, hfold D ∅ (by simp)]
  simp

/-! ## Entry -/

section
variable {n : Nat} {l : List (Fin n)} {w w' : Option (Fin n)}

def ambiguous : FsmError := .modelingError "smoc_xor_state: Must specify single initial state"

theorem markedChild_ok (h : markedChild m p l w = .ok w') :
    (∀ i, w = some i → w' = some i) ∧ (∀ i ∈ l, i.val :: p ∈ m → w' = some i) ∧
      ∀ i, w' = some i → w = some i ∨ i.val :: p ∈ m := by
  induction l generalizing w with
  | nil =>
    cases h
    exact ⟨fun _ h => h, fun _ hi => (List.not_mem_nil hi).elim, fun _ h => .inl h⟩
  | cons i l ih =>
    rw [markedChild] at h
    split at h
    · rename_i hi
      cases w with
      | some j => cases h
      | none =>
        obtain ⟨hw, hl, hback⟩ := ih h
        refine ⟨fun _ hw => ?_, fun j hj hjm => ?_, fun j hj => ?_⟩
        · cases hw
        · rcases List.mem_cons.mp hj with rfl | hj
          · exact hw _ rfl
          · exact hl j hj hjm
        · rcases hback j hj with heq | hjm
          · cases heq
            exact .inr hi
          · exact .inr hjm
    · rename_i hi
      obtain ⟨hw, hl, hback⟩ := ih h
      refine ⟨hw, fun j hj hjm => ?_, hback⟩
      rcases List.mem_cons.mp hj with rfl | hj
      · exact absurd hjm hi
      · exact hl j hj hjm

theorem markedChild_error {e : FsmError} (hl : l.Nodup) (h : markedChild m p l w = .error e) :
    e = ambiguous ∧ ((w.isSome ∧ ∃ i ∈ l, i.val :: p ∈ m) ∨
      ∃ i ∈ l, ∃ j ∈ l, i ≠ j ∧ i.val :: p ∈ m ∧ j.val :: p ∈ m) := by
  induction l generalizing w with
  | nil => cases h
  | cons i l ih =>
    rw [List.nodup_cons] at hl
    rw [markedChild] at h
    split at h
    · rename_i hi
      cases w with
      | some j =>
        cases h
        exact ⟨rfl, .inl ⟨rfl, i, List.mem_cons_self, hi⟩⟩
      | none =>
        obtain ⟨he, ⟨_, j, hj, hjm⟩ | ⟨j, hj, k, hk, hjk⟩⟩ := ih hl.2 h
        · refine ⟨he, .inr ⟨i, List.mem_cons_self, j, List.mem_cons_of_mem _ hj, ?_, hi, hjm⟩⟩
          rintro rfl
          exact hl.1 hj
        · exact ⟨he, .inr ⟨j, List.mem_cons_of_mem _ hj, k, List.mem_cons_of_mem _ hk, hjk⟩⟩
    · obtain ⟨he, ⟨hw, j, hj, hjm⟩ | ⟨j, hj, k, hk, hjk⟩⟩ := ih hl.2 h
      · exact ⟨he, .inl ⟨hw, j, List.mem_cons_of_mem _ hj, hjm⟩⟩
      · exact ⟨he, .inr ⟨j, List.mem_cons_of_mem _ hj, k, List.mem_cons_of_mem _ hk, hjk⟩⟩

end

theorem entered_leaf_iff (hp : t.sub p ≠ some .firing) (hl : t.sub l = some .firing) :
    Entered t D p l ↔ ∃ i, Enters t D p (i :: p) ∧ Entered t D (i :: p) l := by
  constructor
  · intro h
    rcases Relation.ReflTransGen.cases_head h with rfl | ⟨r, hstep, hrest⟩
    · exact absurd hl hp
    · obtain ⟨i, rfl, _⟩ := id hstep
      exact ⟨i, hstep, hrest⟩
  · rintro ⟨i, hstep, hrest⟩
    exact Relation.ReflTransGen.head hstep hrest

theorem ambiguous_of_enters {i : Nat} (h : Enters t D p (i :: p)) (ha : Ambiguous t D (i :: p)) : Ambiguous t D p := by
  obtain ⟨r, n, init, c, j, k, hr, hrest⟩ := ha
  exact ⟨r, n, init, c, j, k, Relation.ReflTransGen.head h hr, hrest⟩

theorem ambiguous_cases (h : Ambiguous t D p) :
    (∃ n init c i j, t.sub p = some (.xor n init c) ∧ i ≠ j ∧ Marked D (i :: p) ∧ Marked D (j :: p)) ∨
      ∃ i, Enters t D p (i :: p) ∧ Ambiguous t D (i :: p) := by
  obtain ⟨r, n, init, c, i, j, hr, hrest⟩ := h
  rcases Relation.ReflTransGen.cases_head hr with rfl | ⟨r', hstep, hr'⟩
  · exact .inl ⟨n, init, c, i, j, hrest⟩
  · obtain ⟨k, rfl, _⟩ := id hstep
    exact .inr ⟨k, hstep, r, n, init, c, i, j, hr', hrest⟩

theorem not_enters_firing {i : Nat} (hp : t.sub p = some .firing) : ¬ Enters t D p (i :: p) := by
  intro h
  obtain ⟨u, hu, hi⟩ := sub_cons h.sub
  rw [hp, Option.some.injEq] at hu
  subst hu
  cases hi

theorem entry_child {i : Nat} {s : ProdState} (hp : t.sub p ≠ some .firing) (hi : Enters t D p (i :: p))
    (honly : ∀ j, Enters t D p (j :: p) → j = i)
    (hs : ∀ l, l ∈ s ↔ t.sub l = some .firing ∧ Entered t D (i :: p) l) (l : StatePath) :
    l ∈ s ↔ t.sub l = some .firing ∧ Entered t D p l := by
  rw [hs]
  refine and_congr_right fun hl => ?_
  rw [entered_leaf_iff hp hl]
  constructor
  · exact fun h => ⟨i, hi, h⟩
  · rintro ⟨j, hj, hent⟩
    rw [← honly j hj]
    exact hent

theorem foldlM_union {n : Nat} {f : Fin n → Except FsmError ProdState} {e : FsmError} {L : List (Fin n)}
    (hf : ∀ i ∈ L, (∃ s, f i = .ok s) ∨ f i = .error e) : ∀ acc : ProdState,
    (∃ s, L.foldlM (fun s i => do return s ∪ (← f i)) acc = .ok s ∧ (∀ i ∈ L, ∃ s, f i = .ok s) ∧
      ∀ l, l ∈ s ↔ l ∈ acc ∨ ∃ i ∈ L, ∃ s, f i = .ok s ∧ l ∈ s) ∨
    (L.foldlM (fun s i => do return s ∪ (← f i)) acc = .error e ∧ ∃ i ∈ L, f i = .error e) := by
  induction L with
  | nil =>
    intro acc
    exact .inl ⟨acc, rfl, fun _ hi => (List.not_mem_nil hi).elim, fun l => by simp⟩
  | cons i L ih =>
    intro acc
    rw [List.foldlM_cons]
    rcases hf i List.mem_cons_self with ⟨si, hi⟩ | hi
    · rw [hi]
      rcases ih (fun j hj => hf j (List.mem_cons_of_mem _ hj)) (acc ∪ si) with ⟨s, hs, hall, hmem⟩ | ⟨hs, j, hj, hfj⟩
      · refine .inl ⟨s, hs, fun j hj => ?_, fun l => ?_⟩
        · rcases List.mem_cons.mp hj with rfl | hj
          · exact ⟨si, hi⟩
          · exact hall j hj
        · rw [hmem, Finset.mem_union, or_assoc]
          refine or_congr_right ⟨?_, ?_⟩
          · rintro (hl | ⟨j, hj, sj, hfj, hl⟩)
            · exact ⟨i, List.mem_cons_self, si, hi, hl⟩
            · exact ⟨j, List.mem_cons_of_mem _ hj, sj, hfj, hl⟩
          · rintro ⟨j, hj, sj, hfj, hl⟩
            rcases List.mem_cons.mp hj with rfl | hj
            · rw [hi, Except.ok.injEq] at hfj
              exact .inl (hfj ▸ hl)
            · exact .inr ⟨j, hj, sj, hfj, hl⟩
      · exact .inr ⟨hs, j, List.mem_cons_of_mem _ hj, hfj⟩
    · rw [hi]
      exact .inr ⟨rfl, i, List.mem_cons_self, hi⟩

theorem getInitialState_eq (h : t.Complete) (hD : t.Valid D) (hu : t.sub p = some u) :
    (∃ s, u.getInitialState (markStates D) p = .ok s ∧ ¬ Ambiguous t D p ∧
      ∀ l, l ∈ s ↔ t.sub l = some .firing ∧ Entered t D p l) ∨
    (u.getInitialState (markStates D) p = .error ambiguous ∧ Ambiguous t D p) := by
  induction u generalizing p with
  | firing =>
    refine .inl ⟨{p}, rfl, fun ha => ?_, fun l => ?_⟩
    · rcases ambiguous_cases ha with ⟨n, init, c, i, j, hx, _⟩ | ⟨i, hi, _⟩
      · rw [hu] at hx
        cases hx
      · exact not_enters_firing hu hi
    · rw [Finset.mem_singleton]
      constructor
      · rintro rfl
        exact ⟨hu, .refl⟩
      · rintro ⟨hl, hent⟩
        exact eq_of_leaf_suffix hu hent.suffix (by rw [hl]; rfl)
  | xor n init c ih =>
    have hp : t.sub p ≠ some .firing := by
      rw [hu]
      exact fun h => nomatch h
    rw [getInitialState]
    cases hm : markedChild (markStates D) p (List.finRange n) none with
    | error e =>
      obtain ⟨he, ⟨hw, _⟩ | ⟨i, _, j, _, hij, hi, hj⟩⟩ := markedChild_error (List.nodup_finRange n) hm
      · cases hw
      · refine .inr ⟨by rw [he]; rfl, p, n, init, c, i, j, .refl, hu, ?_, mem_markStates.mp hi, mem_markStates.mp hj⟩
        exact fun heq => hij (Fin.ext heq)
    | ok w =>
      obtain ⟨_, hall, hback⟩ := markedChild_ok hm
      have hmarked : ∀ j, Marked D (j :: p) → ∃ k : Fin n, k.val = j ∧ w = some k := by
        intro j hj
        obtain ⟨v, hv, hlt⟩ := sub_cons (hj.sub hD)
        rw [hu, Option.some.injEq] at hv
        subst hv
        exact ⟨⟨j, hlt⟩, rfl, hall ⟨j, hlt⟩ (List.mem_finRange _) (mem_markStates.mpr hj)⟩
      have hsub : ∀ i : Fin n, (t.sub (i.val :: p)).isSome := by
        intro i
        rw [sub_xor hu i.isLt]
        rfl
      obtain ⟨i, hi, henter, honly⟩ : ∃ i : Fin n, w.or init = some i ∧ Enters t D p (i.val :: p) ∧
          ∀ j, Enters t D p (j :: p) → j = i := by
        cases w with
        | some i =>
          have hi : Marked D (i.val :: p) := (hback i rfl).elim (fun h => nomatch h) mem_markStates.mp
          refine ⟨i, rfl, ⟨i, rfl, hsub i, fun _ _ _ _ => .inl hi⟩, fun j hj => ?_⟩
          obtain ⟨_, heq, _, hc⟩ := hj
          cases heq
          rcases hc n init c hu with hj | ⟨_, hnone⟩
          · obtain ⟨k, rfl, hk⟩ := hmarked j hj
            cases hk
            rfl
          · exact absurd hi (hnone i)
        | none =>
          have hnone : ∀ j, ¬ Marked D (j :: p) := by
            intro j hj
            obtain ⟨k, _, hk⟩ := hmarked j hj
            cases hk
          obtain ⟨i, rfl⟩ := Option.isSome_iff_exists.mp (h.init _ _ _ _ hu)
          refine ⟨i, rfl, ⟨i, rfl, hsub i, fun n' init' c' hx => ?_⟩, fun j hj => ?_⟩
          · rw [hu, Option.some.injEq] at hx
            cases hx
            exact .inr ⟨rfl, hnone⟩
          · obtain ⟨_, heq, _, hc⟩ := hj
            cases heq
            rcases hc n (some i) c hu with hj | ⟨hj, _⟩
            · exact absurd hj (hnone j)
            · exact (Option.some.inj hj).symm
      simp only [Except.bind, bind, hi]
      rcases ih i (sub_xor hu i.isLt) with ⟨s, hs, hamb, hmem⟩ | ⟨hs, ha⟩
      · refine .inl ⟨s, hs, fun ha => ?_, entry_child hp henter honly hmem⟩
        rcases ambiguous_cases ha with ⟨_, _, _, j, k, _, hjk, hj, hk⟩ | ⟨j, hj, haj⟩
        · obtain ⟨j', rfl, hj'⟩ := hmarked j hj
          obtain ⟨k', rfl, hk'⟩ := hmarked k hk
          rw [hj', Option.some.injEq] at hk'
          exact hjk (congrArg Fin.val hk')
        · rw [honly j hj] at haj
          exact hamb haj
      · exact .inr ⟨hs, ambiguous_of_enters henter ha⟩
  | and n c ih =>
    have hp : t.sub p ≠ some .firing := by
      rw [hu]
      exact fun h => nomatch h
    have henter : ∀ i : Fin n, Enters t D p (i.val :: p) := by
      intro i
      refine ⟨i, rfl, by rw [sub_and hu i.isLt]; rfl, fun _ _ _ hx => ?_⟩
      rw [hu] at hx
      cases hx
    have hchild := fun i : Fin n => ih i (sub_and hu i.isLt)
    rw [getInitialState]
    rcases foldlM_union (f := fun i => (c i).getInitialState (markStates D) (i.val :: p)) (e := ambiguous)
      (L := List.finRange n) (fun i _ => (hchild i).imp (fun ⟨s, hs, _⟩ => ⟨s, hs⟩) And.left) ∅ with
      ⟨s, hs, hall, hmem⟩ | ⟨hs, i, _, hi⟩
    · have hlt : ∀ j, Enters t D p (j :: p) → j < n := by
        intro j hj
        obtain ⟨v, hv, hlt⟩ := sub_cons hj.sub
        rw [hu, Option.some.injEq] at hv
        subst hv
        exact hlt
      have hok : ∀ i : Fin n, ∃ s, (c i).getInitialState (markStates D) (i.val :: p) = .ok s ∧
          ¬ Ambiguous t D (i.val :: p) ∧ ∀ l, l ∈ s ↔ t.sub l = some .firing ∧ Entered t D (i.val :: p) l := by
        intro i
        rcases hchild i with hi | ⟨herr, _⟩
        · exact hi
        · obtain ⟨si, hsi⟩ := hall i (List.mem_finRange i)
          rw [herr] at hsi
          cases hsi
      refine .inl ⟨s, hs, fun ha => ?_, fun l => ?_⟩
      · rcases ambiguous_cases ha with ⟨_, _, _, _, _, hx, _⟩ | ⟨j, hj, haj⟩
        · rw [hu] at hx
          cases hx
        · obtain ⟨_, _, hamb, _⟩ := hok ⟨j, hlt j hj⟩
          exact hamb haj
      · rw [hmem]
        constructor
        · rintro (hl | ⟨i, _, si, hsi, hl⟩)
          · simp at hl
          · obtain ⟨si', hsi', _, hiff⟩ := hok i
            rw [hsi, Except.ok.injEq] at hsi'
            subst hsi'
            obtain ⟨hleaf, hent⟩ := (hiff l).mp hl
            exact ⟨hleaf, Relation.ReflTransGen.head (henter i) hent⟩
        · rintro ⟨hleaf, hent⟩
          obtain ⟨j, hj, hrest⟩ := (entered_leaf_iff hp hleaf).mp hent
          obtain ⟨sj, hsj, _, hiff⟩ := hok ⟨j, hlt j hj⟩
          exact .inr ⟨⟨j, hlt j hj⟩, List.mem_finRange _, sj, hsj, (hiff l).mpr ⟨hleaf, hrest⟩⟩
    · refine .inr ⟨hs, ?_⟩
      rcases hchild i with ⟨s, hok, _⟩ | ⟨_, ha⟩
      · rw [hi] at hok
        cases hok
      · exact ambiguous_of_enters (henter i) ha

/-! ## Ancestor codes -/

/-- `isAncestor` decides the order of the states below the top state. -/
def DecidesAncestors (t : StateTree) : Prop := ∀ a s, a ≠ [] → s ≠ [] → (t.sub a).isSome → (t.sub s).isSome →
  (t.isAncestor a s = true ↔ a <:+ s)

theorem codeBits_cons {i : Nat} (hp : t.sub p = some u) :
    t.codeBits (i :: p) = ((t.code p * 2 ^ flog2c u.numChildren + i) % 2 ^ 64, t.bits p + flog2c u.numChildren) := by
  rw [codeBits, hp]
  rfl

theorem code_lt (h : (t.sub p).isSome) : 1 ≤ t.bits p ∧ t.code p < 2 ^ (t.bits p - 1) := by
  induction p with
  | nil => exact ⟨Nat.le_refl 1, Nat.one_pos⟩
  | cons i p ih =>
    obtain ⟨u, hu, hi⟩ := sub_cons h
    obtain ⟨hbits, hcode⟩ := ih (by rw [hu]; rfl)
    have hwidth : i < 2 ^ flog2c u.numChildren := Nat.lt_of_lt_of_le hi (Nat.le_pow_clog (by decide) _)
    rw [bits, code, codeBits_cons hu]
    refine ⟨Nat.le_add_right_of_le hbits, Nat.lt_of_le_of_lt (Nat.mod_le _ _) ?_⟩
    calc t.code p * 2 ^ flog2c u.numChildren + i
      _ < t.code p * 2 ^ flog2c u.numChildren + 2 ^ flog2c u.numChildren := Nat.add_lt_add_left hwidth _
      _ = (t.code p + 1) * 2 ^ flog2c u.numChildren := by ring
      _ ≤ 2 ^ (t.bits p - 1) * 2 ^ flog2c u.numChildren := Nat.mul_le_mul_right _ hcode
      _ = 2 ^ (t.bits p + flog2c u.numChildren - 1) := by
        rw [← Nat.pow_add]
        congr 1
        omega

theorem bits_lt (h : (t.sub p).isSome) (hp : p ≠ []) (ht : 2 ≤ t.numChildren) : 1 < t.bits p := by
  induction p with
  | nil => exact absurd rfl hp
  | cons i p ih =>
    obtain ⟨u, hu, _⟩ := sub_cons h
    rw [bits, codeBits_cons hu]
    cases p with
    | nil =>
      cases hu
      have := Nat.clog_pos (b := 2) (by decide) ht
      show 1 < 1 + flog2c t.numChildren
      rw [flog2c]
      omega
    | cons j p =>
      have := ih (by rw [hu]; rfl) (List.cons_ne_nil j p)
      exact Nat.lt_add_right _ this

/-- The top state is an ancestor of all others, unless it has a single child. -/
theorem isAncestor_iff {a s : StatePath} (h : t.DecidesAncestors) (ha : (t.sub a).isSome) (hs : (t.sub s).isSome)
    (hne : s ≠ []) (htop : a = [] → 2 ≤ t.numChildren) : t.isAncestor a s = true ↔ a <:+ s := by
  by_cases haa : a = []
  · subst haa
    have hb := bits_lt hs hne (htop rfl)
    have hcode := (code_lt hs).2
    have hzero : t.code s >>> (t.bits s - 1) = 0 := by
      rw [Nat.shiftRight_eq_div_pow]
      exact Nat.div_eq_of_lt hcode
    have hanc : t.isAncestor [] s = true := by
      rw [isAncestor, if_neg hne, if_pos (show t.bits s > t.bits [] from hb)]
      show (0 == t.code s >>> (t.bits s - 1)) = true
      rw [hzero]
      rfl
    simp [hanc]
  · exact h a s haa hne ha hs

/-! ## Scope -/

def Below (t : StateTree) (D : List StatePath) : Prop := ∀ d ∈ D, d ≠ [] ∧ (t.sub d).isSome

def crossing : FsmError := .modelingError "smoc_and_state: Can't create inter-partition transitions"

/-- `x` is an AND state that the transition neither leaves from nor leads to. -/
def Inside (t : StateTree) (D : List StatePath) (p : StatePath) (isSrcState : Bool) (x : StatePath) : Prop :=
  (∃ n c, t.sub x = some (.and n c)) ∧ x ∉ D ∧ (isSrcState = true → x ≠ p)

theorem topHere_eq (h : t.DecidesAncestors) (hD : t.Below D) (hp : (t.sub p).isSome)
    (htop : p = [] → 2 ≤ t.numChildren) (isSrcState : Bool) :
    if ∀ d ∈ D, p <:+ d then
      t.topHere D p isSrcState = some (.ok p) ∧ ¬ Inside t D p isSrcState p ∨
        t.topHere D p isSrcState = some (.error crossing) ∧ Inside t D p isSrcState p
    else t.topHere D p isSrcState = none := by
  obtain ⟨u, hu⟩ := Option.isSome_iff_exists.mp hp
  have hall : (D.all (t.isAncestor p) = true) ↔ ∀ d ∈ D, p <:+ d := by
    rw [List.all_eq_true]
    exact forall₂_congr fun d hd => isAncestor_iff h hp (hD d hd).2 (hD d hd).1 htop
  rw [topHere, hu]
  cases u with
  | firing =>
    have hleaf : (D.all (· = p) = true) ↔ ∀ d ∈ D, p <:+ d := by
      rw [List.all_eq_true]
      refine forall₂_congr fun d hd => ?_
      rw [decide_eq_true_eq]
      exact ⟨fun heq => heq ▸ List.suffix_refl _, fun hs => eq_of_leaf_suffix hu hs (hD d hd).2⟩
    have hnot : ¬ Inside t D p isSrcState p := by
      rintro ⟨⟨n, c, hx⟩, _⟩
      rw [hu] at hx
      cases hx
    split
    · rename_i hc
      exact .inl ⟨if_pos (hleaf.mpr hc), hnot⟩
    · rename_i hc
      exact if_neg fun hd => hc (hleaf.mp hd)
  | xor n init c =>
    have hnot : ¬ Inside t D p isSrcState p := by
      rintro ⟨⟨n, c, hx⟩, _⟩
      rw [hu] at hx
      cases hx
    split
    · rename_i hc
      exact .inl ⟨if_pos (hall.mpr hc), hnot⟩
    · rename_i hc
      exact if_neg fun hd => hc (hall.mp hd)
  | and n c =>
    split
    · rename_i hc
      simp only [if_pos (hall.mpr hc)]
      have hinside : Inside t D p isSrcState p ↔ ¬ (isSrcState || D.any (· = p)) = true := by
        simp [Inside, hu, and_comm]
      by_cases hs : (isSrcState || D.any (· = p)) = true
      · exact .inl ⟨if_pos hs, fun hi => hinside.mp hi hs⟩
      · exact .inr ⟨if_neg hs, hinside.mpr hs⟩
    · rename_i hc
      exact if_neg fun hd => hc (hall.mp hd)

/-- `getTopState` finds the scope, or reports that it is an AND state to be left
for another partition. -/
theorem getTopState_eq (h : t.DecidesAncestors) (hD : t.Below D) (hp : (t.sub p).isSome)
    (htop : p = [] → 2 ≤ t.numChildren) (isSrcState : Bool) :
    ∃ x, IsScope p D x ∧ (x = [] → 2 ≤ t.numChildren) ∧
      (t.getTopState D p isSrcState = .ok x ∧ ¬ Inside t D p isSrcState x ∨
        t.getTopState D p isSrcState = .error crossing ∧ Inside t D p isSrcState x) := by
  induction p generalizing isSrcState with
  | nil =>
    have here := topHere_eq h hD hp htop isSrcState
    rw [if_pos fun d _ => List.nil_suffix] at here
    refine ⟨[], ⟨List.suffix_refl _, fun _ _ => List.nil_suffix, fun y hy _ => hy⟩, htop, ?_⟩
    rw [getTopState]
    exact here.imp (And.imp_left fun he => by rw [he]; rfl) (And.imp_left fun he => by rw [he]; rfl)
  | cons i p ih =>
    have here := topHere_eq h hD hp htop isSrcState
    rw [getTopState]
    split at here
    · rename_i hc
      refine ⟨i :: p, ⟨List.suffix_refl _, hc, fun y hy _ => hy⟩, fun hn => (List.cons_ne_nil _ _ hn).elim, ?_⟩
      exact here.imp (And.imp_left fun he => by rw [he]; rfl) (And.imp_left fun he => by rw [he]; rfl)
    · rename_i hc
      obtain ⟨u, hu, hi⟩ := sub_cons hp
      have htop' : p = [] → 2 ≤ t.numChildren := by
        rintro rfl
        cases hu
        simp only [not_forall] at hc
        -- a destination below another child of the top state
        obtain ⟨d, hd, hnot⟩ := hc
        obtain ⟨hne, hs⟩ := hD d hd
        obtain ⟨d', j, rfl⟩ := (List.eq_nil_or_concat d).resolve_left hne
        have hj : (t.sub [j]).isSome := sub_of_suffix (by simp) hs
        obtain ⟨v, hv, hlt⟩ := sub_cons hj
        cases hv
        have hij : i ≠ j := by
          rintro rfl
          exact hnot (by simp)
        omega
      obtain ⟨x, hscope, hx, hres⟩ := ih (by rw [hu]; rfl) htop' false
      have hxp : x ≠ i :: p := by
        intro heq
        have := hscope.src.length_le
        rw [heq, List.length_cons] at this
        omega
      refine ⟨x, ⟨List.suffix_cons_iff.mpr (.inr hscope.src), hscope.dest, fun y hy hyd => ?_⟩, hx, ?_⟩
      · rcases List.suffix_cons_iff.mp hy with rfl | hy
        · exact absurd hyd hc
        · exact hscope.greatest y hy hyd
      · have hiff : Inside t D p false x ↔ Inside t D (i :: p) isSrcState x := by
          simp [Inside, hxp]
        rw [here, Option.getD_none, ← hiff]
        exact hres

end StateTree

namespace FiringFSM

open StateTree

variable {R : Type} {b : Build} {t : StateTree} {tr : ExpandedTransition R} {etl : List (ExpandedTransition R)}
  {s s' : ProdState} {q : StatePath}

structure WellFormed (t : StateTree) (tr : ExpandedTransition R) : Prop where
  src : tr.src ≠ [] ∧ (t.sub tr.src).isSome
  conds : ∀ c ∈ tr.conds, c.1 ≠ [] ∧ (t.sub c.1).isSome
  dest : t.Below tr.dest

def Leaves (t : StateTree) (s : ProdState) : Prop := ∀ l ∈ s, t.sub l = some .firing

theorem Leaves.ne_nil (h : Leaves t s) (ht : t ≠ .firing) {l : StatePath} (hl : l ∈ s) : l ≠ [] := by
  rintro rfl
  have := h [] hl
  rw [StateTree.sub, Option.some.injEq] at this
  exact ht this

theorem isImplied_iff (h : t.DecidesAncestors) (ht : t ≠ .firing) (hs : Leaves t s)
    (hq : q ≠ [] ∧ (t.sub q).isSome) : isImplied t q s = true ↔ Active s q := by
  rw [isImplied, decide_eq_true_eq]
  refine exists_congr fun l => and_congr_right fun hl => ?_
  exact h q l hq.1 (hs.ne_nil ht hl) hq.2 (by rw [hs l hl]; rfl)

theorem active_iff (h : t.DecidesAncestors) (ht : t ≠ .firing) (hs : Leaves t s) (hw : WellFormed t tr) :
    (isImplied t tr.src s && condsImplied t tr.conds s) = true ↔ tr.Active s := by
  rw [Bool.and_eq_true, isImplied_iff h ht hs hw.src, condsImplied, List.all_eq_true]
  refine and_congr_right fun _ => forall₂_congr fun c hc => ?_
  rw [← isImplied_iff h ht hs (hw.conds c hc)]
  cases isImplied t c.1 s <;> cases c.2 <;> simp

/-- The target of an active transition, or the fault of the model. -/
theorem target_eq (h : t.DecidesAncestors) (ht : t ≠ .firing) (hc : t.Complete) (hs : Leaves t s) (hw : WellFormed t tr)
    (hact : tr.Active s) :
    (∃ s', target b t tr s = .ok s' ∧ tr.Step t s s') ∨
    ∃ x, IsScope tr.src tr.dest x ∧ (target b t tr s = .error crossing ∧ tr.Crosses t x ∨
      target b t tr s = .error ambiguous ∧ ¬ tr.Crosses t x ∧ Ambiguous t tr.dest x) := by
  obtain ⟨x, hscope, hx, htop⟩ := getTopState_eq h hw.dest hw.src.2 (fun hn => absurd hn hw.src.1) true
  have hinside : Inside t tr.dest tr.src true x ↔ tr.Crosses t x := by
    simp [Inside, ExpandedTransition.Crosses, and_comm]
  rw [hinside] at htop
  rcases htop with ⟨htop, hcross⟩ | ⟨htop, hcross⟩
  · obtain ⟨u, hu⟩ := Option.isSome_iff_exists.mp (sub_of_suffix hscope.src hw.src.2)
    have hanc : ∀ l ∈ s, t.isAncestor x l = false ↔ ¬ x <:+ l := by
      intro l hl
      rw [← isAncestor_iff h (by rw [hu]; rfl) (by rw [hs l hl]; rfl) (hs.ne_nil ht hl) hx, Bool.not_eq_true]
    rw [target, htop]
    simp only [Except.bind, bind, hu]
    rcases getInitialState_eq (D := tr.dest) hc (fun d hd => (hw.dest d hd).2) hu with ⟨d, hd, hamb, hmem⟩ | ⟨hd, hamb⟩
    · have hdisj : Disjoint d (s.filter fun l => t.isAncestor x l = false) := by
        rw [Finset.disjoint_left]
        intro l hl hrest
        rw [Finset.mem_filter] at hrest
        exact (hanc l hrest.1).mp hrest.2 ((hmem l).mp hl).2.suffix
      left
      rw [hd]
      simp only [Build.require, b.assert_of hdisj]
      refine ⟨_, rfl, hact, x, hscope, hcross, hamb, fun l => ?_⟩
      rw [Finset.mem_union, hmem, Finset.mem_filter]
      exact or_congr_right (and_congr_right fun hl => hanc l hl)
    · rw [hd]
      exact .inr ⟨x, hscope, .inr ⟨rfl, hcross, hamb⟩⟩
  · right
    rw [target, htop]
    exact ⟨x, hscope, .inl ⟨rfl, hcross⟩⟩

/-- Some active transition of the list has no target, with what is reported. -/
def Faulty (t : StateTree) (etl : List (ExpandedTransition R)) (s : ProdState) (e : FsmError) : Prop :=
  ∃ tr ∈ etl, tr.Active s ∧ ∃ x, IsScope tr.src tr.dest x ∧
    (e = crossing ∧ tr.Crosses t x ∨ e = ambiguous ∧ ¬ tr.Crosses t x ∧ Ambiguous t tr.dest x)

/-- The transitions of a product state are the active ones, in the order of the list. -/
theorem transitionsOf_eq (h : t.DecidesAncestors) (ht : t ≠ .firing) (hc : t.Complete) (hs : Leaves t s)
    (hw : ∀ tr ∈ etl, WellFormed t tr) :
    (∃ l, transitionsOf b t s etl = .ok l ∧
      List.Forall₂ (fun tr e => e.1 = tr.rule ∧ tr.Step t s e.2) (etl.filter fun tr => tr.Active s) l) ∨
    ∃ e, transitionsOf b t s etl = .error e ∧ Faulty t etl s e := by
  induction etl with
  | nil => exact .inl ⟨[], rfl, .nil⟩
  | cons tr etl ih =>
    have hrest := ih fun tr' htr' => hw tr' (List.mem_cons_of_mem _ htr')
    have hfault : ∀ {e}, Faulty t etl s e → Faulty t (tr :: etl) s e := by
      rintro e ⟨tr', htr', hrest⟩
      exact ⟨tr', List.mem_cons_of_mem _ htr', hrest⟩
    have hwtr := hw tr List.mem_cons_self
    rw [transitionsOf]
    by_cases hact : tr.Active s
    · rw [if_pos ((active_iff h ht hs hwtr).mpr hact), List.filter_cons_of_pos (by simpa using hact)]
      rcases target_eq (b := b) h ht hc hs hwtr hact with ⟨s', hs', hstep⟩ | ⟨x, hx, hres⟩
      · rw [hs']
        rcases hrest with ⟨l, hl, hall⟩ | ⟨e, he, hf⟩
        · exact .inl ⟨(tr.rule, s') :: l, by rw [hl]; rfl, .cons ⟨rfl, hstep⟩ hall⟩
        · exact .inr ⟨e, by rw [he]; rfl, hfault hf⟩
      · rcases hres with ⟨he, hcross⟩ | ⟨he, hcross, hamb⟩
        · exact .inr ⟨crossing, by rw [he]; rfl, tr, List.mem_cons_self, hact, x, hx, .inl ⟨rfl, hcross⟩⟩
        · exact .inr ⟨ambiguous, by rw [he]; rfl, tr, List.mem_cons_self, hact, x, hx, .inr ⟨rfl, hcross, hamb⟩⟩
    · rw [if_neg fun ha => hact ((active_iff h ht hs hwtr).mp ha), List.filter_cons_of_neg (by simpa using hact)]
      exact hrest.imp id fun ⟨e, he, hf⟩ => ⟨e, he, hfault hf⟩

end FiringFSM

end SysteMoC
