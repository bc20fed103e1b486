import SysteMoC.Flatten

/-!
# Ancestor codes in machine words

The codes as `finalise` assigns them, with the number of children cast to 32 bits and the
code in 64 bits, and the states for which `isAncestor` follows the parent links.
-/

namespace SysteMoC

namespace StateTree

def childBits (n : Nat) : Nat := flog2c (n % 2 ^ 32)

def wordBits (t : StateTree) : StatePath → Nat × Nat
  | [] => (0, 1)
  | i :: p =>
    let cb := childBits (((t.sub p).map numChildren).getD 0)
    (((t.wordBits p).1 * 2 ^ cb + i) % 2 ^ 64, (t.wordBits p).2 + cb)

def wordCode (t : StateTree) (p : StatePath) : Nat := (t.wordBits p).1

def width (t : StateTree) (p : StatePath) : Nat := (t.wordBits p).2

def wordIsAncestor (t : StateTree) (a s : StatePath) : Bool :=
  if s = a then true
  else if t.width s > t.width a then t.wordCode a == t.wordCode s >>> (t.width s - t.width a)
  else false

/-- The assertion in `finalise`. -/
def Narrow (t : StateTree) : Prop := ∀ p, (t.sub p).isSome → t.width p < 64

def IsParent (q p : StatePath) : Prop := ∃ i, q = i :: p

def IsProperAncestor (a s : StatePath) : Prop := Relation.TransGen IsParent s a

/-- States with children have at least two of them, and not more than the cast keeps. -/
def Branches (t : StateTree) : Prop :=
  ∀ p u, t.sub p = some u → u.numChildren = 0 ∨ 2 ≤ u.numChildren ∧ u.numChildren < 2 ^ 32

section
variable {t u : StateTree} {a s p : StatePath} {i j : Nat}

theorem suffix_iff_ancestor : a <:+ s ↔ a = s ∨ IsProperAncestor a s := by
  constructor
  · intro h
    induction s with
    | nil => exact .inl (List.suffix_nil.mp h)
    | cons i s ih =>
      obtain rfl | h := List.suffix_cons_iff.mp h
      · exact .inl rfl
      · right
        obtain rfl | h := ih h
        · exact .single ⟨i, rfl⟩
        · exact .head ⟨i, rfl⟩ h
  · intro h
    obtain rfl | h := h
    · exact List.suffix_refl _
    · unfold IsProperAncestor at h
      induction h with
      | single h =>
        obtain ⟨i, rfl⟩ := h
        exact List.suffix_cons _ _
      | tail _ h ih =>
        obtain ⟨i, rfl⟩ := h
        exact (List.suffix_cons _ _).trans ih

/-- Two states, one not below the other, part at two different children. -/
theorem parting : ∀ a s : StatePath, a <:+ s ∨ s <:+ a ∨ ∃ c i j, i ≠ j ∧ i :: c <:+ a ∧ j :: c <:+ s := by
  intro a
  induction a with
  | nil => exact fun s => .inl (List.nil_suffix)
  | cons i a ih =>
    intro s
    obtain h | h | ⟨c, x, y, hne, hx, hy⟩ := ih s
    · obtain ⟨r, rfl⟩ := h
      obtain rfl | ⟨r, j, rfl⟩ := List.eq_nil_or_concat r
      · exact .inr (.inl (List.suffix_cons i _))
      · by_cases hij : i = j
        · exact .inl ⟨r, by simp [hij]⟩
        · exact .inr (.inr ⟨a, i, j, hij, List.suffix_refl _, ⟨r, by simp⟩⟩)
    · exact .inr (.inl (h.trans (List.suffix_cons _ _)))
    · exact .inr (.inr ⟨c, x, y, hne, hx.trans (List.suffix_cons _ _), hy⟩)

theorem sub_child (h : t.sub p = some u) (hi : i < u.numChildren) : (t.sub (i :: p)).isSome := by
  cases u with
  | firing => exact absurd hi (Nat.not_lt_zero i)
  | xor n init c =>
    rw [sub_xor h hi]
    rfl
  | and n c =>
    rw [sub_and h hi]
    rfl

theorem wordBits_cons (hp : t.sub p = some u) : t.wordBits (i :: p) =
    ((t.wordCode p * 2 ^ childBits u.numChildren + i) % 2 ^ 64, t.width p + childBits u.numChildren) := by
  rw [wordBits, hp]
  rfl

theorem childBits_spec {n : Nat} (h : 2 ≤ n ∧ n < 2 ^ 32) : 1 ≤ childBits n ∧ n ≤ 2 ^ childBits n := by
  rw [childBits, flog2c, Nat.mod_eq_of_lt h.2]
  exact ⟨Nat.clog_pos (by decide) h.1, Nat.le_pow_clog (by decide) n⟩

/-! ## Trees that branch -/

theorem branch (hb : t.Branches) (h : (t.sub (i :: p)).isSome) :
    ∃ u, t.sub p = some u ∧ i < 2 ^ childBits u.numChildren ∧ 1 ≤ childBits u.numChildren := by
  obtain ⟨u, hu, hi⟩ := sub_cons h
  obtain hzero | hn := hb p u hu
  · omega
  · obtain ⟨hone, hle⟩ := childBits_spec hn
    exact ⟨u, hu, Nat.lt_of_lt_of_le hi hle, hone⟩

/-- Codes fill their width, so nothing is cut off at 64 bits. -/
theorem wordCode_lt (hb : t.Branches) (h : (t.sub p).isSome) : t.wordCode p < 2 ^ t.width p := by
  induction p with
  | nil => exact Nat.zero_lt_succ 1
  | cons i p ih =>
    obtain ⟨u, hu, hi, -⟩ := branch hb h
    have hcode := ih (by rw [hu]; rfl)
    rw [wordCode, width, wordBits_cons hu]
    refine Nat.lt_of_le_of_lt (Nat.mod_le _ _) ?_
    calc t.wordCode p * 2 ^ childBits u.numChildren + i
      _ < t.wordCode p * 2 ^ childBits u.numChildren + 2 ^ childBits u.numChildren := Nat.add_lt_add_left hi _
      _ = (t.wordCode p + 1) * 2 ^ childBits u.numChildren := by ring
      _ ≤ 2 ^ t.width p * 2 ^ childBits u.numChildren := Nat.mul_le_mul_right _ hcode
      _ = 2 ^ (t.width p + childBits u.numChildren) := by rw [Nat.pow_add]

theorem wordCode_cons (hb : t.Branches) (hn : t.Narrow) (h : (t.sub (i :: p)).isSome) (hu : t.sub p = some u) :
    t.wordCode (i :: p) = t.wordCode p * 2 ^ childBits u.numChildren + i := by
  have hlt := wordCode_lt hb h
  have hwidth : 2 ^ t.width (i :: p) ≤ 2 ^ 64 := Nat.pow_le_pow_right (by decide) (hn _ h).le
  obtain ⟨v, hv, hi, -⟩ := branch hb h
  rw [hu, Option.some.injEq] at hv
  subst hv
  rw [wordCode, wordBits_cons hu]
  refine Nat.mod_eq_of_lt ?_
  have hcode := wordCode_lt (p := p) hb (by rw [hu]; rfl)
  calc t.wordCode p * 2 ^ childBits u.numChildren + i
    _ < t.wordCode p * 2 ^ childBits u.numChildren + 2 ^ childBits u.numChildren := Nat.add_lt_add_left hi _
    _ = (t.wordCode p + 1) * 2 ^ childBits u.numChildren := by ring
    _ ≤ 2 ^ t.width p * 2 ^ childBits u.numChildren := Nat.mul_le_mul_right _ hcode
    _ = 2 ^ t.width (i :: p) := by rw [← Nat.pow_add, width, width, wordBits_cons hu]; rfl
    _ ≤ 2 ^ 64 := hwidth

/-- The code of a state starts with the codes of its ancestors. -/
theorem wordCode_suffix (hb : t.Branches) (hn : t.Narrow) (h : a <:+ s) (hs : (t.sub s).isSome) :
    t.width a ≤ t.width s ∧ (a ≠ s → t.width a < t.width s) ∧
      t.wordCode s / 2 ^ (t.width s - t.width a) = t.wordCode a := by
  induction s with
  | nil =>
    rw [List.suffix_nil.mp h]
    exact ⟨Nat.le_refl _, fun hne => absurd rfl hne, by simp⟩
  | cons i s ih =>
    obtain rfl | h := List.suffix_cons_iff.mp h
    · exact ⟨Nat.le_refl _, fun hne => absurd rfl hne, by simp⟩
    · obtain ⟨u, hu, hi, hone⟩ := branch hb hs
      obtain ⟨hle, -, hcode⟩ := ih h (by rw [hu]; rfl)
      have hwidth : t.width (i :: s) = t.width s + childBits u.numChildren := by rw [width, wordBits_cons hu]
      refine ⟨by omega, fun _ => by omega, ?_⟩
      have hsplit : t.width (i :: s) - t.width a = childBits u.numChildren + (t.width s - t.width a) := by omega
      rw [hsplit, Nat.pow_add, ← Nat.div_div_eq_div_mul, wordCode_cons hb hn hs hu]
      rw [Nat.mul_comm, Nat.mul_add_div (Nat.two_pow_pos _), Nat.div_eq_of_lt hi, Nat.add_zero]
      exact hcode

theorem wordIsAncestor_iff (hb : t.Branches) (hn : t.Narrow) (ha : (t.sub a).isSome) (hs : (t.sub s).isSome) :
    t.wordIsAncestor a s = true ↔ a <:+ s := by
  unfold wordIsAncestor
  by_cases heq : s = a
  · simp [heq]
  · rw [if_neg heq]
    constructor
    · intro h
      split at h
      · rename_i hlt
        have hcode : t.wordCode a = t.wordCode s / 2 ^ (t.width s - t.width a) := by
          rw [← Nat.shiftRight_eq_div_pow]
          exact beq_iff_eq.mp h
        obtain hpre | hpre | ⟨c, i, j, hne, hi, hj⟩ := parting a s
        · exact hpre
        · have hle := (wordCode_suffix hb hn hpre ha).1
          omega
        · obtain ⟨hwi, -, hci⟩ := wordCode_suffix hb hn hi ha
          obtain ⟨hwj, -, hcj⟩ := wordCode_suffix hb hn hj hs
          have hsi := sub_of_suffix hi ha
          have hsj := sub_of_suffix hj hs
          obtain ⟨u, hu, -⟩ := sub_cons hsi
          have hsame : t.width (i :: c) = t.width (j :: c) := by
            rw [width, width, wordBits_cons hu, wordBits_cons hu]
          have hsplit : t.width s - t.width (j :: c) = (t.width s - t.width a) + (t.width a - t.width (i :: c)) := by omega
          rw [hsplit, Nat.pow_add, ← Nat.div_div_eq_div_mul, ← hcode, hci, wordCode_cons hb hn hsi hu,
            wordCode_cons hb hn hsj hu] at hcj
          omega
      · cases h
    · intro h
      obtain ⟨-, hlt, hcode⟩ := wordCode_suffix hb hn h hs
      rw [if_pos (hlt fun has => heq has.symm), Nat.shiftRight_eq_div_pow, hcode]
      simp

/-! ## Trees that do not -/

/-- An only child has its parent's code and width; of too many children one has another's prefix. -/
theorem child_missed (hu : t.sub p = some u) (hne : u.numChildren ≠ 0)
    (hbad : ¬ (2 ≤ u.numChildren ∧ u.numChildren < 2 ^ 32)) :
    ∃ i, (t.sub (i :: p)).isSome ∧ t.wordIsAncestor p (i :: p) = false := by
  by_cases hzero : childBits u.numChildren = 0
  · refine ⟨0, sub_child hu (Nat.pos_of_ne_zero hne), ?_⟩
    have hwidth : t.width (0 :: p) = t.width p := by rw [width, wordBits_cons hu, hzero]; rfl
    simp [wordIsAncestor, hwidth]
  · have hle : childBits u.numChildren ≤ 32 := by
      have hlt := Nat.mod_lt u.numChildren (show 0 < 2 ^ 32 by decide)
      exact Nat.clog_le_of_le_pow hlt.le
    have hmany : 2 ^ 32 < u.numChildren := by
      by_contra hfew
      refine hbad ⟨?_, ?_⟩
      · by_contra htwo
        obtain hone : u.numChildren = 1 := by omega
        exact hzero (by rw [hone]; rfl)
      · refine lt_of_le_of_ne (not_lt.mp hfew) fun heq => hzero ?_
        rw [heq]
        rfl
    have hi : 2 ^ childBits u.numChildren < u.numChildren :=
      Nat.lt_of_le_of_lt (Nat.pow_le_pow_right (by decide) hle) hmany
    refine ⟨2 ^ childBits u.numChildren, sub_child hu hi, ?_⟩
    generalize hk : childBits u.numChildren = k at hle hzero
    have hwidth : t.width (2 ^ k :: p) = t.width p + k := by rw [width, wordBits_cons hu, hk]
    have hcode : t.wordCode (2 ^ k :: p) / 2 ^ k = (t.wordCode p + 1) % 2 ^ (64 - k) := by
      have hpow : 2 ^ 64 = 2 ^ k * 2 ^ (64 - k) := by
        rw [← Nat.pow_add]
        congr 1
        omega
      rw [wordCode, wordBits_cons hu, hk]
      dsimp only
      rw [show t.wordCode p * 2 ^ k + 2 ^ k = 2 ^ k * (t.wordCode p + 1) by ring, hpow, Nat.mul_mod_mul_left,
        Nat.mul_div_cancel_left _ (Nat.two_pow_pos k)]
    have hdiffer : (t.wordCode p + 1) % 2 ^ (64 - k) ≠ t.wordCode p := by
      intro heq
      have hlt := Nat.mod_lt (t.wordCode p + 1) (Nat.two_pow_pos (64 - k))
      rw [heq] at hlt
      obtain h | h := Nat.lt_or_ge (t.wordCode p + 1) (2 ^ (64 - k))
      · rw [Nat.mod_eq_of_lt h] at heq
        omega
      · rw [show t.wordCode p + 1 = 2 ^ (64 - k) by omega, Nat.mod_self] at heq
        have htwo : 2 ^ 1 ≤ 2 ^ (64 - k) := Nat.pow_le_pow_right (by decide) (by omega)
        omega
    have hsub : t.width p + k - t.width p = k := by omega
    simp [wordIsAncestor, hwidth, Nat.pos_of_ne_zero hzero, hsub, Nat.shiftRight_eq_div_pow, hcode, hdiffer.symm]

/-- On which trees `isAncestor` follows the parent links. -/
theorem ancestors_coded (t : StateTree) (hn : t.Narrow) :
    (∀ a s, (t.sub a).isSome → (t.sub s).isSome → (t.wordIsAncestor a s = true ↔ a = s ∨ IsProperAncestor a s)) ↔
      t.Branches := by
  constructor
  · intro h p u hu
    by_contra hbad
    rw [not_or] at hbad
    obtain ⟨i, hi, hmiss⟩ := child_missed hu hbad.1 hbad.2
    have htrue := (h p (i :: p) (by rw [hu]; rfl) hi).mpr (.inr (.single ⟨i, rfl⟩))
    rw [hmiss] at htrue
    cases htrue
  · intro hb a s ha hs
    rw [wordIsAncestor_iff hb hn ha hs, suffix_iff_ancestor]

end

instance (t : StateTree) : Decidable t.Narrow :=
  decidable_of_iff (∀ p ∈ t.states [], t.width p < 64) (by simp only [mem_states_top, Narrow])

/-- Two states, the second with one child. -/
def onlyChild : StateTree :=
  .xor 2 (some ⟨0, Nat.two_pos⟩) fun i => if i.val = 0 then .firing else .xor 1 (some ⟨0, Nat.one_pos⟩) fun _ => .firing

theorem ancestors_coded_onlyChild :
    (∀ a s, (onlyChild.sub a).isSome → (onlyChild.sub s).isSome →
      (onlyChild.wordIsAncestor a s = true ↔ a = s ∨ IsProperAncestor a s)) ↔ onlyChild.Branches :=
  ancestors_coded onlyChild (by decide)

/-- A state is no ancestor of its only child. -/
theorem onlyChild_missed : onlyChild.Narrow ∧ ∃ a s, (onlyChild.sub a).isSome ∧ (onlyChild.sub s).isSome ∧
    IsProperAncestor a s ∧ onlyChild.wordIsAncestor a s = false :=
  ⟨by decide, [1], [0, 1], by decide, by decide, .single ⟨0, rfl⟩, by decide⟩

/-! ## Codes in numbers -/

/-- With fewer than `2 ^ 32` children each, the cast changes nothing. -/
theorem wordBits_eq {t : StateTree} (h : ∀ p u, t.sub p = some u → u.numChildren < 2 ^ 32) (p : StatePath) :
    t.wordBits p = t.codeBits p := by
  induction p with
  | nil => rfl
  | cons i p ih =>
    rw [wordBits, codeBits, ih]
    cases hp : t.sub p with
    | none => rfl
    | some u =>
      have hbits : childBits u.numChildren = flog2c u.numChildren := by rw [childBits, Nat.mod_eq_of_lt (h p u hp)]
      dsimp only [Option.map_some, Option.getD_some]
      rw [hbits]

theorem decidesAncestors_of_branches {t : StateTree} (hb : t.Branches) (hn : t.Narrow) : t.DecidesAncestors := by
  have hfew : ∀ p u, t.sub p = some u → u.numChildren < 2 ^ 32 := by
    intro p u hu
    obtain h | h := hb p u hu
    · rw [h]
      decide
    · exact h.2
  intro a s _ _ ha hs
  have hsame : t.isAncestor a s = t.wordIsAncestor a s := by
    unfold isAncestor wordIsAncestor bits code width wordCode
    rw [wordBits_eq hfew, wordBits_eq hfew]
  rw [hsame]
  exact wordIsAncestor_iff hb hn ha hs

end StateTree

end SysteMoC
