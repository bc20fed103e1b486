import SysteMoC.TokenGenerator

/-!
# What the storage loops do

Slots are addressed relative to `rindex`. The two loops of `rpp` and
`resetQueue` clear a stretch that may wrap; `moveTokensRight` on a list of positions
erases the tokens there.
-/

namespace SysteMoC

open Cyclic

variable {T : Type}

/-! ## Clearing loops -/

namespace Storage

theorem invalidateFrom_apply (st : Storage T) (i n j : Nat) :
    st.invalidateFrom i n j = if i ≤ j ∧ j < i + n then none else st j := by
  induction n generalizing st i with
  | zero => rw [invalidateFrom, if_neg (by omega)]
  | succ n ih =>
    rw [invalidateFrom, ih]
    by_cases hj : j = i
    · subst hj
      rw [if_neg (by omega), if_pos (by omega)]
      exact Function.update_self _ _ _
    · have : st.invalidate i j = st j := Function.update_of_ne hj _ _
      rw [this]
      by_cases h : i + 1 ≤ j ∧ j < i + 1 + n
      · rw [if_pos h, if_pos (by omega)]
      · rw [if_neg h, if_neg (by omega)]

theorem clear_add {m : Nat} {st : Storage T} {a n k : Nat} (ha : a < m) (hn : n ≤ m) (hk : k < m) :
    st.clear m a n (add m a k) = if k < n then none else st (add m a k) := by
  rw [clear, invalidateFrom_apply, invalidateFrom_apply, add_eq ha (Nat.le_of_lt hk)]
  split
  · rename_i h
    rw [if_neg (by omega)]
    by_cases hkn : k < n
    · rw [if_pos (by omega), if_pos hkn]
    · rw [if_neg (by omega), if_neg hkn]
  · rename_i h
    by_cases hkn : k < n
    · rw [if_pos (by omega), if_pos hkn]
    · rw [if_neg (by omega), if_neg (by omega), if_neg hkn]

theorem putTokens_apply (st : Storage T) (j : Nat) (ts : List T) (i : Nat) :
    st.putTokens j ts i = if j ≤ i ∧ i < j + ts.length then ts[i - j]? else st i := by
  induction ts generalizing st j with
  | nil => rw [putTokens, if_neg (by simp only [List.length_nil]; omega)]
  | cons t ts ih =>
    rw [putTokens, ih, List.length_cons]
    by_cases hi : i = j
    · subst hi
      rw [if_neg (by omega), if_pos (by omega), Nat.sub_self]
      exact Function.update_self _ _ _
    · have : st.put j t i = st i := Function.update_of_ne hi _ _
      rw [this]
      by_cases h : j + 1 ≤ i ∧ i < j + 1 + ts.length
      · rw [if_pos h, if_pos (by omega), show i - j = i - (j + 1) + 1 by omega, List.getElem?_cons_succ]
      · rw [if_neg h, if_neg (by omega)]

end Storage

/-! ## Erasing a descending list of positions -/

def eraseAll (l : List T) (g : List Nat) : List T := g.foldl List.eraseIdx l

theorem eraseAll_cons (l : List T) (i : Nat) (g : List Nat) :
    eraseAll l (i :: g) = eraseAll (l.eraseIdx i) g := rfl

/-- Each position is below the ones before it, and the first below `n`. -/
def Descending : Nat → List Nat → Prop
  | _, [] => True
  | n, i :: g => i < n ∧ Descending i g

theorem Descending.mono {n n' : Nat} {g : List Nat} (h : Descending n g) (hn : n ≤ n') : Descending n' g := by
  cases g with
  | nil => trivial
  | cons i g => exact ⟨Nat.lt_of_lt_of_le h.1 hn, h.2⟩

theorem Descending.lt {n : Nat} {g : List Nat} (h : Descending n g) : ∀ i ∈ g, i < n := by
  induction g generalizing n with
  | nil => exact fun i hi => absurd hi List.not_mem_nil
  | cons j g ih =>
    intro i hi
    obtain rfl | hi := List.mem_cons.mp hi
    · exact h.1
    · exact Nat.lt_trans (ih h.2 i hi) h.1

theorem Descending.length_le {n : Nat} {g : List Nat} (h : Descending n g) : g.length ≤ n := by
  induction g generalizing n with
  | nil => exact Nat.zero_le _
  | cons i g ih => exact Nat.lt_of_le_of_lt (ih h.2) h.1

theorem eraseAll_append (l l' : List T) (g : List Nat) (hg : Descending l.length g) :
    eraseAll (l ++ l') g = eraseAll l g ++ l' := by
  induction g generalizing l with
  | nil => rfl
  | cons i g ih =>
    obtain ⟨hi, hg⟩ := hg
    rw [eraseAll_cons, eraseAll_cons, List.eraseIdx_append_of_lt_length hi]
    apply ih
    apply hg.mono
    rw [List.length_eraseIdx_of_lt hi]
    omega

theorem length_eraseAll (l : List T) (g : List Nat) (hg : Descending l.length g) :
    (eraseAll l g).length + g.length = l.length := by
  induction g generalizing l with
  | nil => rfl
  | cons i g ih =>
    obtain ⟨hi, hg⟩ := hg
    have hl := List.length_eraseIdx_of_lt hi
    have := ih (l.eraseIdx i) (hg.mono (by omega))
    rw [eraseAll_cons, List.length_cons]
    omega

theorem eraseAll_map_add (l l' : List T) (g : List Nat) :
    eraseAll (l ++ l') (g.map (· + l.length)) = l ++ eraseAll l' g := by
  induction g generalizing l' with
  | nil => rfl
  | cons i g ih =>
    rw [List.map_cons, eraseAll_cons, List.eraseIdx_append_of_length_le (by omega), Nat.add_sub_cancel, ih]
    rfl

theorem Descending.map_add {n k : Nat} {g : List Nat} (h : Descending n g) :
    Descending (k + n) (g.map (· + k)) := by
  induction g generalizing n with
  | nil => trivial
  | cons i g ih =>
    obtain ⟨hi, hg⟩ := h
    refine ⟨?_, ?_⟩
    · rw [Nat.add_comm k]
      exact Nat.add_lt_add_right hi k
    · have := ih hg
      rwa [Nat.add_comm k] at this

/-! ## Moving tokens right -/

namespace QueueWithStorage

def moveLoop [Token T] (q : QueueWithStorage T) : List Nat → Storage T → Int → Int → Option (Storage T × Int)
  | [], st, srcPos, dstPos =>
    if srcPos = -1 then some (st, dstPos + 1) else do
      let (st, dstPos) ← q.shiftLoop srcPos.toNat (st.invalidate (q.slot srcPos)) (srcPos - 1) dstPos
      return (st, dstPos + 1)
  | npos :: g, st, srcPos, dstPos =>
    if srcPos = -1 then some (st, dstPos + 1) else do
      let n := (srcPos - 1 - npos).toNat
      let (st, dstPos) ← q.shiftLoop n (st.invalidate (q.slot srcPos)) (srcPos - 1) dstPos
      q.moveLoop g st (srcPos - 1 - n) dstPos

def moveTokensRight [Token T] (q : QueueWithStorage T) : List Nat → Option (Storage T × Int)
  | [] => q.moveLoop [] q.storage (-1) (-1)
  | srcPos :: g => q.moveLoop g q.storage srcPos srcPos

/-- `dropRInvisible` on a list of positions in the pipeline area. -/
def dropAt [Token T] (b : Build) (q : QueueWithStorage T) (g : List Nat) : Option (QueueWithStorage T) := do
  let (st, n) ← q.moveTokensRight (g.map (· + q.visibleCount))
  let base ← q.toQueueFRVWPtr.dropRInvisible b n.toNat
  return { toQueueFRVWPtr := base, storage := st }

variable {q : QueueWithStorage T}

theorem slot_natCast (i : Nat) : q.slot i = add q.fsize q.rindex i := rfl

section
variable (hr : q.rindex < q.fsize)
include hr

theorem put_slot {st : Storage T} {i j : Nat} {t : T} (hi : i < q.fsize) (hj : j < q.fsize) :
    st.put (q.slot i) t (q.slot j) = if j = i then some t else st (q.slot j) := by
  split
  · rename_i h; subst h; exact Function.update_self _ _ _
  · rename_i h; exact update_other hr hj hi h

theorem invalidate_slot {st : Storage T} {i j : Nat} (hi : i < q.fsize) (hj : j < q.fsize) :
    st.invalidate (q.slot i) (q.slot j) = if j = i then none else st (q.slot j) := by
  split
  · rename_i h; subst h; exact Function.update_self _ _ _
  · rename_i h; exact update_other hr hj hi h

variable [Token T]

/-- The `n` tokens below position `a` move right by `e`. -/
theorem shiftLoop_eq (n : Nat) : ∀ (st : Storage T) (a e : Nat), n ≤ a → 0 < e → a + e ≤ q.fsize →
    (∀ i, a - n ≤ i → i < a → (st (q.slot i)).isSome) →
    (∀ i, a ≤ i → i < a + e → st (q.slot i) = none) →
    ∃ st', q.shiftLoop n st (a - 1 : Int) (a - 1 + e : Int) = some (st', (a - 1 + e - n : Int)) ∧
      ∀ i, i < q.fsize → st' (q.slot i) =
        if i < a - n then st (q.slot i) else if i < a - n + e then none
        else if i < a + e then st (q.slot (i - e : Nat)) else st (q.slot i) := by
  induction n with
  | zero =>
    intro st a e _ he hae _ hnone
    refine ⟨st, by simp [shiftLoop], fun i hi => ?_⟩
    by_cases h₁ : i < a
    · rw [if_pos (by omega)]
    · by_cases h₂ : i < a + e
      · rw [if_neg (by omega), if_pos (by omega)]
        exact hnone i (by omega) h₂
      · rw [if_neg (by omega), if_neg (by omega), if_neg h₂]
  | succ n ih =>
    intro st a e hna he hae hsome hnone
    obtain ⟨t, ht⟩ := Option.isSome_iff_exists.mp (hsome (a - 1) (by omega) (by omega))
    have hsrc : (a - 1 : Int) = ((a - 1 : Nat) : Int) := by omega
    have hdst : (a - 1 + e : Int) = ((a - 1 + e : Nat) : Int) := by omega
    let st₁ := (st.put (q.slot ((a - 1 + e : Nat) : Int)) t).invalidate (q.slot ((a - 1 : Nat) : Int))
    have hst₁ : ∀ i : Nat, i < q.fsize → st₁ (q.slot i) =
        if i = a - 1 then none else if i = a - 1 + e then some t else st (q.slot i) := by
      intro i hi
      refine (invalidate_slot hr (by omega) hi).trans ?_
      rw [put_slot hr (by omega) hi]
    obtain ⟨st', heq, hst'⟩ := ih st₁ (a - 1) e (by omega) he (by omega)
      (by
        intro i h₁ h₂
        rw [hst₁ i (by omega), if_neg (by omega), if_neg (by omega)]
        exact hsome i (by omega) (by omega))
      (by
        intro i h₁ h₂
        rw [hst₁ i (by omega)]
        split
        · rfl
        · rw [if_neg (by omega)]; exact hnone i (by omega) (by omega))
    refine ⟨st', ?_, fun i hi => ?_⟩
    · rw [shiftLoop, hdst, hsrc, Storage.get, ht]
      simp only [Option.bind_eq_bind, Option.bind_some]
      have hnext : (((a - 1 + e : Nat) : Int) - 1) = ((a - 1 : Nat) : Int) - 1 + e := by omega
      have hend : (((a - 1 + e : Nat) : Int) - ((n + 1 : Nat) : Int)) = ((a - 1 : Nat) : Int) - 1 + e - n := by
        omega
      rw [hnext, hend]
      exact heq
    · rw [hst' i hi, show a - (n + 1) = a - 1 - n by omega]
      by_cases h₁ : i < a - 1 - n
      · rw [if_pos h₁, if_pos h₁, hst₁ i hi, if_neg (by omega), if_neg (by omega)]
      · rw [if_neg h₁, if_neg h₁]
        by_cases h₂ : i < a - 1 - n + e
        · rw [if_pos h₂, if_pos h₂]
        · rw [if_neg h₂, if_neg h₂]
          by_cases h₃ : i < a - 1 + e
          · rw [if_pos h₃, if_pos (show i < a + e by omega), hst₁ _ (by omega), if_neg (by omega),
              if_neg (by omega)]
          · rw [if_neg h₃, hst₁ i hi, if_neg (by omega)]
            by_cases h₄ : i = a - 1 + e
            · rw [if_pos h₄, if_pos (show i < a + e by omega), ← ht, show i - e = a - 1 by omega]
            · rw [if_neg h₄, if_neg (by omega)]

/-- One round of the outer loop: the token at `s` goes and the `k` below it move
right over the gap of `d` slots. -/
theorem shiftLoop_round {st : Storage T} {l : List T} {s d k : Nat} (hl : l.length = s + 1) (hk : k ≤ s)
    (hd : s + 1 + d ≤ q.fsize) (hlist : Holds q.fsize st q.rindex l)
    (hgap : Clear q.fsize st (add q.fsize q.rindex (s + 1)) d) :
    ∃ st', q.shiftLoop k (st.invalidate (q.slot s)) (s - 1 : Int) (s + d : Int) =
        some (st', ((s - k + d : Nat) : Int)) ∧
      Holds q.fsize st' q.rindex (l.take (s - k)) ∧
      Clear q.fsize st' (add q.fsize q.rindex (s - k)) (d + 1) ∧
      Holds q.fsize st' (add q.fsize q.rindex (s - k + d + 1)) ((l.take s).drop (s - k)) ∧
      ∀ i, s + 1 + d ≤ i → i < q.fsize → st' (add q.fsize q.rindex i) = st (add q.fsize q.rindex i) := by
  have hinv : ∀ i : Nat, i < q.fsize → st.invalidate (q.slot s) (q.slot i) =
      if i = s then none else st (q.slot i) := fun i hi => invalidate_slot hr (by omega) hi
  have hsome : ∀ i, s - k ≤ i → i < s → (st.invalidate (q.slot s) (q.slot i)).isSome := by
    intro i _ hi
    rw [hinv i (by omega), if_neg (by omega), slot_natCast, hlist i (by omega)]
    simp only [List.getElem?_eq_getElem (show i < l.length by omega), Option.isSome_some]
  have hnone : ∀ i, s ≤ i → i < s + (d + 1) → st.invalidate (q.slot s) (q.slot i) = none := by
    intro i hi hi'
    rw [hinv i (by omega)]
    by_cases h : i = s
    · rw [if_pos h]
    · have := hgap (i - (s + 1)) (by omega)
      rw [add_add, show s + 1 + (i - (s + 1)) = i by omega] at this
      rw [if_neg h, slot_natCast, this]
  obtain ⟨st', heq, hst'⟩ := shiftLoop_eq hr k _ s (d + 1) hk (by omega) (by omega) hsome hnone
  have hval : ∀ i, i < s → st.invalidate (q.slot s) (q.slot i) = l[i]? := by
    intro i hi
    rw [hinv i (by omega), if_neg (by omega), slot_natCast, hlist i (by omega)]
  refine ⟨st', ?_, ?_, ?_, ?_, ?_⟩
  · rw [show ((s : Int) + d) = s - 1 + ((d + 1 : Nat) : Int) by omega, heq]
    congr 2
    omega
  · intro i hi
    rw [List.length_take] at hi
    have := hst' i (by omega)
    rw [if_pos (by omega), hval i (by omega)] at this
    rw [List.getElem?_take_of_lt (by omega)]
    exact this
  · intro i hi
    rw [add_add]
    have := hst' (s - k + i) (by omega)
    rwa [if_neg (by omega), if_pos (by omega)] at this
  · intro i hi
    rw [List.length_drop, List.length_take] at hi
    rw [add_add]
    have := hst' (s - k + d + 1 + i) (by omega)
    rw [if_neg (by omega), if_neg (by omega), if_pos (by omega), hval _ (by omega)] at this
    rw [List.getElem?_drop, List.getElem?_take_of_lt (by omega),
      show s - k + i = s - k + d + 1 + i - (d + 1) by omega]
    exact this
  · intro i hi hi'
    have := hst' i hi'
    rw [if_neg (by omega), if_neg (by omega), if_neg (by omega), hinv i hi', if_neg (by omega)] at this
    exact this

/-- The induction follows the generator; `d` is the gap the rounds so far left. -/
theorem moveLoop_eq (g : List Nat) : ∀ (st : Storage T) (l : List T) (s d : Nat), l.length = s + 1 →
    Descending s g → s + 1 + d ≤ q.fsize → Holds q.fsize st q.rindex l →
    Clear q.fsize st (add q.fsize q.rindex (s + 1)) d →
    ∃ st', q.moveLoop g st s (s + d : Int) = some (st', ((d + 1 + g.length : Nat) : Int)) ∧
      Clear q.fsize st' q.rindex (d + 1 + g.length) ∧
      Holds q.fsize st' (add q.fsize q.rindex (d + 1 + g.length)) (eraseAll l (s :: g)) ∧
      ∀ i, s + 1 + d ≤ i → i < q.fsize → st' (add q.fsize q.rindex i) = st (add q.fsize q.rindex i) := by
  induction g with
  | nil =>
    intro st l s d hl _ hd hlist hgap
    obtain ⟨st', heq, _, hclear, hheld, hrest⟩ := shiftLoop_round hr hl (Nat.le_refl s) hd hlist hgap
    have herase : eraseAll l [s] = l.take s := by
      rw [eraseAll_cons, List.eraseIdx_eq_take_drop_succ, List.drop_of_length_le (by omega), List.append_nil]
      rfl
    refine ⟨st', ?_, ?_, ?_, hrest⟩
    · rw [moveLoop, if_neg (by omega), Int.toNat_natCast, heq]
      simp
    · rw [Nat.sub_self, add_zero hr] at hclear
      exact hclear
    · rw [herase]
      rwa [Nat.sub_self, Nat.zero_add, List.drop_zero] at hheld
  | cons n g ih =>
    intro st l s d hl hg hd hlist hgap
    obtain ⟨hn, hg⟩ := hg
    have hk : s - (s - 1 - n) = n + 1 := by omega
    obtain ⟨st₁, heq, hlow, hclear, hhigh, hrest⟩ :=
      shiftLoop_round hr (k := s - 1 - n) hl (by omega) hd hlist hgap
    rw [hk] at heq hlow hclear hhigh
    have hlen : (l.take (n + 1)).length = n + 1 := by rw [List.length_take]; omega
    obtain ⟨st', heq', hclear', hheld', hrest'⟩ := ih st₁ (l.take (n + 1)) n (d + 1) hlen hg (by omega) hlow hclear
    have hsplit : l.eraseIdx s = l.take (n + 1) ++ (l.take s).drop (n + 1) := by
      rw [List.eraseIdx_eq_take_drop_succ, List.drop_of_length_le (show l.length ≤ s + 1 by omega),
        List.append_nil]
      conv_lhs => rw [← List.take_append_drop (n + 1) (l.take s)]
      rw [List.take_take, Nat.min_eq_left (by omega)]
    have hdesc : Descending (l.take (n + 1)).length (n :: g) := ⟨by omega, hg⟩
    have hcount := length_eraseAll _ _ hdesc
    rw [hlen, List.length_cons] at hcount
    refine ⟨st', ?_, ?_, ?_, ?_⟩
    · rw [moveLoop, if_neg (by omega), show ((s : Int) - 1 - n).toNat = s - 1 - n by omega]
      simp only [heq, Option.bind_eq_bind, Option.bind_some]
      rw [show (s : Int) - 1 - ((s - 1 - n : Nat) : Int) = n by omega,
        show ((n + 1 + d : Nat) : Int) = n + ((d + 1 : Nat) : Int) by omega, heq']
      congr 2
      rw [List.length_cons]
      omega
    · rw [List.length_cons, show d + 1 + (g.length + 1) = d + 1 + 1 + g.length by omega]
      exact hclear'
    · rw [eraseAll_cons, hsplit, eraseAll_append _ _ _ hdesc, List.length_cons, holds_append, add_add,
        show d + 1 + (g.length + 1) = d + 1 + 1 + g.length by omega,
        show d + 1 + 1 + g.length + (eraseAll (l.take (n + 1)) (n :: g)).length = n + 1 + d + 1 by omega]
      refine ⟨hheld', holds_congr hhigh fun i hi => ?_⟩
      rw [List.length_drop, List.length_take] at hi
      rw [add_add]
      exact hrest' _ (by omega) (by omega)
    · intro i hi hi'
      rw [hrest' i (by omega) hi', hrest i hi hi']

/-- The positions the generator yields are gone, the rest of the list has moved
right by their number. -/
theorem moveTokensRight_eq {l : List T} {g : List Nat} (hl : l.length ≤ q.fsize)
    (hg : Descending l.length g) (hlist : Holds q.fsize q.storage q.rindex l) :
    ∃ st', q.moveTokensRight g = some (st', (g.length : Int)) ∧
      (∀ i < g.length, st' (add q.fsize q.rindex i) = none) ∧
      Holds q.fsize st' (add q.fsize q.rindex g.length) (eraseAll l g) ∧
      ∀ i, l.length ≤ i → i < q.fsize → st' (add q.fsize q.rindex i) = q.storage (add q.fsize q.rindex i) := by
  cases g with
  | nil =>
    refine ⟨q.storage, rfl, fun i hi => absurd hi (Nat.not_lt_zero i), ?_, fun _ _ _ => rfl⟩
    rw [List.length_nil, add_zero hr]
    exact hlist
  | cons s g =>
    obtain ⟨hs, hg⟩ := hg
    have hlen : (l.take (s + 1)).length = s + 1 := by rw [List.length_take]; omega
    have hdesc : Descending (l.take (s + 1)).length (s :: g) := ⟨by omega, hg⟩
    obtain ⟨st', heq, hclear, hheld, hrest⟩ := moveLoop_eq hr g q.storage (l.take (s + 1)) s 0 hlen hg (by omega)
      (holds_take hlist _) (fun i hi => absurd hi (Nat.not_lt_zero i))
    have hcount := length_eraseAll _ _ hdesc
    rw [hlen, List.length_cons] at hcount
    rw [Nat.zero_add, Nat.add_comm] at heq hclear hheld
    refine ⟨st', ?_, hclear, ?_, ?_⟩
    · rw [moveTokensRight, List.length_cons]
      simpa only [Int.natCast_zero, Int.add_zero] using heq
    · rw [← List.take_append_drop (s + 1) l, eraseAll_append _ _ _ hdesc, List.length_cons, holds_append, add_add,
        Nat.add_comm (g.length + 1), hcount]
      refine ⟨hheld, holds_congr (holds_drop hlist (by omega)) fun i hi => ?_⟩
      rw [List.length_drop] at hi
      rw [add_add]
      exact hrest _ (by omega) (by omega)
    · intro i hi hi'
      exact hrest i (by omega) hi'

end

/-! ### The indices of the base class -/

section
variable {q q' : QueueWithStorage T} {b : Build} {n : Nat}

theorem rpp_base (h : q.rpp b n = some q') : q.toQueueFRVWPtr.rpp b n = some q'.toQueueFRVWPtr := by
  simp only [rpp, Option.bind_eq_bind, Option.bind_eq_some_iff] at h
  obtain ⟨_, _, base, hbase, heq⟩ := h
  cases heq
  exact hbase

theorem wpp_base (h : q.wpp b n = some q') : q.toQueueFRVWPtr.wpp b n = some q'.toQueueFRVWPtr := by
  simp only [wpp, Option.bind_eq_bind, Option.bind_eq_some_iff] at h
  obtain ⟨base, hbase, heq⟩ := h
  cases heq
  exact hbase

theorem vpp_base (h : q.vpp b n = some q') : q.toQueueFRVWPtr.vpp b n = some q'.toQueueFRVWPtr := by
  simp only [vpp, Option.bind_eq_bind, Option.bind_eq_some_iff] at h
  obtain ⟨base, hbase, heq⟩ := h
  cases heq
  exact hbase

theorem fpp_base (h : q.fpp b n = some q') : q.toQueueFRVWPtr.fpp b n = some q'.toQueueFRVWPtr := by
  simp only [fpp, Option.bind_eq_bind, Option.bind_eq_some_iff] at h
  obtain ⟨base, hbase, heq⟩ := h
  cases heq
  exact hbase

end

/-! ### The number of removed tokens -/

variable [Token T]

theorem shiftLoop_dst {n : Nat} : ∀ {st st' : Storage T} {src dst dst' : Int},
    q.shiftLoop n st src dst = some (st', dst') → dst' = dst - n := by
  induction n with
  | zero =>
    intro st st' src dst dst' h
    cases h
    simp
  | succ n ih =>
    intro st st' src dst dst' h
    simp only [shiftLoop, Option.bind_eq_bind, Option.bind_eq_some_iff] at h
    obtain ⟨_, _, h⟩ := h
    have := ih h
    omega

theorem moveLoop_count {g : List Nat} : ∀ {st st' : Storage T} {s d : Nat} {k : Int}, Descending s g →
    q.moveLoop g st s (s + d : Int) = some (st', k) → k = d + 1 + g.length := by
  induction g with
  | nil =>
    intro st st' s d k _ h
    rw [moveLoop, if_neg (by omega)] at h
    simp only [Option.bind_eq_bind, Option.bind_eq_some_iff] at h
    obtain ⟨r, hr, h⟩ := h
    have := shiftLoop_dst hr
    cases h
    simp only [List.length_nil]
    omega
  | cons n g ih =>
    intro st st' s d k hg h
    obtain ⟨hn, hg⟩ := hg
    rw [moveLoop, if_neg (by omega)] at h
    simp only [Option.bind_eq_bind, Option.bind_eq_some_iff] at h
    obtain ⟨⟨st₁, dst⟩, hr, h⟩ := h
    have hdst := shiftLoop_dst hr
    rw [show (s : Int) - 1 - ((((s : Int) - 1 - n).toNat : Nat) : Int) = n by omega,
      show dst = (n : Int) + ((d + 1 : Nat) : Int) by omega] at h
    have := ih hg h
    rw [List.length_cons]
    omega

theorem moveTokensRight_count {g : List Nat} {m : Nat} {st : Storage T} {k : Int} (hg : Descending m g)
    (h : q.moveTokensRight g = some (st, k)) : k = g.length := by
  cases g with
  | nil =>
    cases h
    rfl
  | cons s g =>
    have hloop : q.moveLoop g q.storage s ((s : Int) + ((0 : Nat) : Int)) = some (st, k) := by
      rw [moveTokensRight] at h
      simpa only [Int.natCast_zero, Int.add_zero] using h
    have := moveLoop_count hg.2 hloop
    rw [List.length_cons]
    omega

theorem dropAt_base {b : Build} {q' : QueueWithStorage T} {g : List Nat} {n : Nat} (hg : Descending n g)
    (h : q.dropAt b g = some q') :
    q.toQueueFRVWPtr.dropRInvisible b g.length = some q'.toQueueFRVWPtr := by
  simp only [dropAt, Option.bind_eq_bind, Option.bind_eq_some_iff] at h
  obtain ⟨⟨st, k⟩, hmove, base, hbase, heq⟩ := h
  cases heq
  have := moveTokensRight_count (hg.map_add (k := q.visibleCount)) hmove
  rw [List.length_map] at this
  subst this
  exact hbase

end QueueWithStorage

/-! ## What a queue carries -/

/-- The two loops of `rpp` clear the slots the read index passes. -/
theorem QueueWithStorage.rpp_eq {q : QueueWithStorage T} {b : Build} {c v p n : Nat}
    (h : Areas q.toQueueFRVWPtr c v p) (hn : n ≤ v) :
    q.rpp b n = some {
      toQueueFRVWPtr := { q.toQueueFRVWPtr with rindex := add q.fsize q.rindex n }
      storage := q.storage.clear q.fsize q.rindex n } := by
  have hf := h.fits
  have hr := h.rindex_lt
  have hwrap : n - min n (q.fsize - q.rindex) = 0 ∨ q.rindex + min n (q.fsize - q.rindex) = q.fsize := by omega
  simp only [QueueWithStorage.rpp, b.assert_of hwrap, h.rpp_eq (b := b) hn, Option.bind_eq_bind, Option.bind_some]
  rfl

theorem ringSlot_eq {m a n : Nat} (ha : a < m) (hn : n ≤ m) : ringSlot m a n = add m a n :=
  (add_eq ha hn).symm

/-- `c` slots being consumed, cleared already, then the visible tokens and the
tokens in the pipeline. -/
structure Carries (q : QueueWithStorage T) (c : Nat) (visible pipeline : List T) : Prop where
  areas : Areas q.toQueueFRVWPtr c visible.length pipeline.length
  cleared : Clear q.fsize q.storage q.findex c
  held : Holds q.fsize q.storage q.rindex (visible ++ pipeline)

/-- The free slots of `q'` are free slots of `q`, shifted by `k`, or cleared. -/
def Fresh (q q' : QueueWithStorage T) (k : Nat) : Prop :=
  ∀ i, i ≤ q'.freeCount → q'.storage (add q'.fsize q'.windex i) =
    if i + k ≤ q.freeCount then q.storage (add q.fsize q.windex (i + k)) else none

namespace Carries

variable {q : QueueWithStorage T} {c n : Nat} {visible pipeline : List T} {b : Build}

theorem slot_windex (h : Carries q c visible pipeline) (i : Nat) :
    add q.fsize q.windex i = add q.fsize q.findex (c + (visible.length + pipeline.length) + i) := by
  rw [h.areas.windex_eq, add_add, Nat.add_assoc c]

theorem slot_rindex (h : Carries q c visible pipeline) (i : Nat) :
    add q.fsize q.rindex i = add q.fsize q.findex (c + i) := by
  rw [h.areas.rindex_eq, add_add]

theorem get_visible (h : Carries q c visible pipeline) {i : Nat} (hi : i < visible.length) :
    q.storage (add q.fsize q.rindex i) = visible[i]? := by
  rw [h.held i (by rw [List.length_append]; omega), List.getElem?_append_left hi]

/-- Reading the read access below `numAvailable` gives the visible tokens in order. -/
theorem ringRead_eq (h : Carries q c visible pipeline) {i limit : Nat} (hi : i < visible.length) (hl : i < limit) :
    ringRead b limit q.storage q.fsize q.rindex i = visible[i]? := by
  have hf := h.areas.fits
  rw [ringRead, b.debugAssert_of hl, ringSlot_eq h.areas.rindex_lt (by omega)]
  exact h.get_visible hi

theorem rpp (h : Carries q c visible pipeline) (hn : n ≤ visible.length) :
    ∃ q', q.rpp b n = some q' ∧ Carries q' (c + n) (visible.drop n) pipeline ∧ q'.fsize = q.fsize ∧
      Fresh q q' 0 := by
  have hf := h.areas.fits
  have ha := h.areas.rpp hn
  have hclear : ∀ k, k < q.fsize → q.storage.clear q.fsize q.rindex n (add q.fsize q.rindex k) =
      if k < n then none else q.storage (add q.fsize q.rindex k) :=
    fun k hk => Storage.clear_add h.areas.rindex_lt (by omega) hk
  refine ⟨_, QueueWithStorage.rpp_eq h.areas hn, ⟨?_, ?_, ?_⟩, rfl, ?_⟩
  · rw [List.length_drop]
    exact ha
  · rw [clear_add]
    refine ⟨fun i hi => ?_, fun i hi => ?_⟩
    · have hback : add q.fsize q.findex i = add q.fsize q.rindex (q.fsize - c + i) := by
        rw [h.slot_rindex, show c + (q.fsize - c + i) = i + q.fsize by omega, ← add_add,
          add_self (add_lt h.areas.fsize_pos)]
      show q.storage.clear q.fsize q.rindex n (add q.fsize q.findex i) = none
      rw [hback, hclear _ (by omega), if_neg (by omega), ← hback]
      exact h.cleared i hi
    · show q.storage.clear q.fsize q.rindex n (add q.fsize (add q.fsize q.findex c) i) = none
      rw [← h.areas.rindex_eq, hclear i (by omega), if_pos hi]
  · intro i hi
    rw [List.length_append, List.length_drop] at hi
    show q.storage.clear q.fsize q.rindex n (add q.fsize (add q.fsize q.rindex n) i) = _
    rw [add_add, hclear _ (by omega), if_neg (by omega), h.held _ (by rw [List.length_append]; omega),
      ← List.drop_append_of_le_length hn, List.getElem?_drop]
  · intro i hi
    rw [ha.freeCount_eq] at hi
    show q.storage.clear q.fsize q.rindex n (add q.fsize q.windex i) = _
    rw [h.areas.freeCount_eq, if_pos (show i + 0 ≤ _ by simp only at hi; omega)]
    rw [h.areas.windex_rindex, add_add, hclear _ (by simp only at hi; omega), if_neg (by omega), add_add]
    rfl

theorem vpp (h : Carries q c visible pipeline) (hn : n ≤ pipeline.length) :
    ∃ q', q.vpp b n = some q' ∧ Carries q' c (visible ++ pipeline.take n) (pipeline.drop n) ∧
      q'.fsize = q.fsize ∧ Fresh q q' 0 := by
  have ha := h.areas.vpp hn
  let q' : QueueWithStorage T :=
    { q with toQueueFRVWPtr := { q.toQueueFRVWPtr with vindex := add q.fsize q.vindex n } }
  refine ⟨q', ?_, ⟨?_, h.cleared, ?_⟩, rfl, ?_⟩
  · simp only [QueueWithStorage.vpp, h.areas.vpp_eq (b := b) hn, Option.bind_eq_bind, Option.bind_some]
    rfl
  · rw [List.length_append, List.length_drop, List.length_take_of_le hn]
    exact ha
  · rw [List.append_assoc, List.take_append_drop]
    exact h.held
  · intro i hi
    rw [if_pos]
    · rfl
    · rw [ha.freeCount_eq] at hi
      rw [h.areas.freeCount_eq]
      simp only at hi
      omega

theorem wpp {ts : List T} (h : Carries q c visible pipeline) (hn : ts.length ≤ q.freeCount)
    (hts : Holds q.fsize q.storage q.windex ts) :
    ∃ q', q.wpp b ts.length = some q' ∧ Carries q' c visible (pipeline ++ ts) ∧ q'.fsize = q.fsize ∧
      Fresh q q' ts.length := by
  have ha := h.areas.wpp hn
  let q' : QueueWithStorage T :=
    { q with toQueueFRVWPtr := { q.toQueueFRVWPtr with windex := add q.fsize q.windex ts.length } }
  refine ⟨q', ?_, ⟨?_, h.cleared, ?_⟩, rfl, ?_⟩
  · simp only [QueueWithStorage.wpp, h.areas.wpp_eq (b := b) hn, Option.bind_eq_bind, Option.bind_some]
    rfl
  · rw [List.length_append]
    exact ha
  · rw [← List.append_assoc, holds_append]
    refine ⟨h.held, ?_⟩
    rw [List.length_append]
    show Holds q.fsize q.storage (add q.fsize q.rindex _) ts
    rw [← h.areas.windex_rindex]
    exact hts
  · intro i hi
    rw [if_pos]
    · show q.storage (add q.fsize (add q.fsize q.windex ts.length) i) = _
      rw [add_add, Nat.add_comm i]
    · rw [ha.freeCount_eq] at hi
      rw [h.areas.freeCount_eq] at hn ⊢
      simp only at hi
      omega

theorem fpp (h : Carries q c visible pipeline) (hn : n ≤ c) :
    ∃ q', q.fpp b n = some q' ∧ Carries q' (c - n) visible pipeline ∧ q'.fsize = q.fsize ∧ Fresh q q' 0 := by
  have hf := h.areas.fits
  have ha := h.areas.fpp hn
  let q' : QueueWithStorage T :=
    { q with toQueueFRVWPtr := { q.toQueueFRVWPtr with findex := add q.fsize q.findex n } }
  refine ⟨q', ?_, ⟨ha, ?_, h.held⟩, rfl, ?_⟩
  · simp only [QueueWithStorage.fpp, h.areas.fpp_eq (b := b) hn, Option.bind_eq_bind, Option.bind_some]
    rfl
  · have := h.cleared
    rw [show c = n + (c - n) by omega, clear_add] at this
    exact this.2
  · intro i hi
    rw [ha.freeCount_eq] at hi
    rw [h.areas.freeCount_eq]
    simp only at hi
    split
    · rfl
    · have hslot : add q.fsize q.windex i = add q.fsize q.findex
          (c + (visible.length + pipeline.length) + i - q.fsize) := by
        rw [h.slot_windex, show c + (visible.length + pipeline.length) + i =
          c + (visible.length + pipeline.length) + i - q.fsize + q.fsize by omega, ← add_add,
          add_self (add_lt h.areas.fsize_pos), Nat.add_sub_cancel]
      show q.storage (add q.fsize q.windex i) = none
      rw [hslot]
      exact h.cleared _ (by omega)

theorem put (h : Carries q c visible pipeline) {i : Nat} (hi : i < q.freeCount) (t : T) :
    Carries { q with storage := q.storage.put (add q.fsize q.windex i) t } c visible pipeline := by
  have hf := h.areas.fits
  have hfi := h.areas.findex_lt
  rw [h.areas.freeCount_eq] at hi
  refine ⟨h.areas, fun j hj => ?_, fun j hj => ?_⟩
  · show Function.update q.storage (add q.fsize q.windex i) (some t) (add q.fsize q.findex j) = none
    rw [h.slot_windex, update_other hfi (by omega) (by omega) (by omega)]
    exact h.cleared j hj
  · show Function.update q.storage (add q.fsize q.windex i) (some t) (add q.fsize q.rindex j) = _
    have hj' := hj
    rw [List.length_append] at hj'
    rw [h.slot_windex, h.slot_rindex, update_other hfi (by omega) (by omega) (by omega), ← h.slot_rindex]
    exact h.held j hj

/-- `n` slots at the front are cleared, the tokens that stay have moved right. -/
theorem dropped {st : Storage T} {base : QueueFRVWPtr} {rest : List T} (h : Carries q c visible pipeline)
    (hlen : rest.length + n = pipeline.length) (hbase : q.toQueueFRVWPtr.dropRInvisible b n = some base)
    (hgap : Clear q.fsize st q.rindex n) (hheld : Holds q.fsize st (add q.fsize q.rindex n) (visible ++ rest))
    (hrest : ∀ i, visible.length + pipeline.length ≤ i → i < q.fsize →
      st (add q.fsize q.rindex i) = q.storage (add q.fsize q.rindex i)) :
    Carries { toQueueFRVWPtr := base, storage := st } c visible rest ∧ base.fsize = q.fsize ∧
      Fresh q { toQueueFRVWPtr := base, storage := st } 0 := by
  have hf := h.areas.fits
  obtain ⟨base', hbase', ha, hsize, hfindex, hrindex, hwindex⟩ := h.areas.dropRInvisible_eq (b := b) (n := n) (by omega)
  rw [hbase, Option.some.injEq] at hbase'
  subst hbase'
  have hgone : Clear q.fsize st q.findex (c + n) := by
    rw [clear_add, ← h.areas.rindex_eq]
    refine ⟨fun i hi => ?_, hgap⟩
    have hback : add q.fsize q.findex i = add q.fsize q.rindex (q.fsize - c + i) := by
      rw [h.slot_rindex, show c + (q.fsize - c + i) = i + q.fsize by omega, ← add_add,
        add_self (add_lt h.areas.fsize_pos)]
    rw [hback, hrest _ (by omega) (by omega), ← hback]
    exact h.cleared i hi
  refine ⟨⟨?_, ?_, ?_⟩, hsize, ?_⟩
  · rw [show rest.length = pipeline.length - n by omega]
    exact ha
  · show Clear base.fsize st base.findex c
    rw [hsize, hfindex]
    rw [Nat.add_comm, clear_add] at hgone
    exact hgone.2
  · show Holds base.fsize st base.rindex _
    rw [hsize, hrindex]
    exact hheld
  · intro i hi
    rw [ha.freeCount_eq] at hi
    rw [h.areas.freeCount_eq]
    show st (add base.fsize base.windex i) = _
    simp only [hsize, hwindex] at hi ⊢
    split
    · rw [h.areas.windex_rindex, add_add, add_add]
      exact hrest _ (by omega) (by omega)
    · have hslot : add q.fsize q.windex i = add q.fsize q.findex
          (c + (visible.length + pipeline.length) + i - q.fsize) := by
        rw [h.slot_windex, show c + (visible.length + pipeline.length) + i =
          c + (visible.length + pipeline.length) + i - q.fsize + q.fsize by omega, ← add_add,
          add_self (add_lt h.areas.fsize_pos), Nat.add_sub_cancel]
      rw [hslot]
      exact hgone _ (by omega)

theorem dropAt [Token T] {g : List Nat} (h : Carries q c visible pipeline)
    (hg : Descending pipeline.length g) :
    ∃ q', q.dropAt b g = some q' ∧ Carries q' c visible (eraseAll pipeline g) ∧ q'.fsize = q.fsize ∧
      Fresh q q' 0 := by
  have hf := h.areas.fits
  have hmax : Descending (visible ++ pipeline).length (g.map (· + visible.length)) := by
    rw [List.length_append]
    exact hg.map_add
  obtain ⟨st, hmove, hgap, hheld, hrest⟩ :=
    QueueWithStorage.moveTokensRight_eq h.areas.rindex_lt (by rw [List.length_append]; omega) hmax h.held
  obtain ⟨base, hbase, _⟩ := h.areas.dropRInvisible_eq (b := b) hg.length_le
  rw [List.length_map] at hmove hgap hheld
  rw [List.length_append] at hrest
  rw [eraseAll_map_add] at hheld
  obtain ⟨hcar, hsize, hfresh⟩ := h.dropped (length_eraseAll _ _ hg) hbase hgap hheld hrest
  refine ⟨{ toQueueFRVWPtr := base, storage := st }, ?_, hcar, hsize, hfresh⟩
  simp only [QueueWithStorage.dropAt, h.areas.visibleCount_eq, hmove, Option.bind_eq_bind,
    Option.bind_some, Int.toNat_natCast, hbase]
  rfl

end Carries

theorem QueueWithStorage.doReset_eq {q : QueueWithStorage T} {b : Build} {l : List T} (hr : q.rindex < q.fsize)
    (hts : l.length < q.fsize) :
    ∃ q', q.doReset b l = some q' ∧ Carries q' 0 l [] ∧ q'.fsize = q.fsize := by
  have hm : 0 < q.fsize := Nat.lt_of_le_of_lt (Nat.zero_le _) hr
  have ha := Areas.resetQueue (q := q.toQueueFRVWPtr) hm
  have hassert : (if q.rindex ≤ q.windex then 0 else q.windex) = 0 ∨
      max q.rindex (if q.rindex ≤ q.windex then q.windex else q.fsize) = q.fsize := by
    by_cases h : q.rindex ≤ q.windex
    · exact .inl (if_pos h)
    · rw [if_neg h, if_neg h]; exact .inr (Nat.max_eq_right (Nat.le_of_lt hr))
  obtain ⟨q₁, hreset, hq₁⟩ : ∃ q₁, q.resetQueue b = some q₁ ∧
      q₁.toQueueFRVWPtr = q.toQueueFRVWPtr.resetQueue := by
    simp only [QueueWithStorage.resetQueue, b.assert_of hassert, Option.bind_eq_bind, Option.bind_some]
    exact ⟨_, rfl, rfl⟩
  have hsize : q₁.fsize = q.fsize := by rw [hq₁]; rfl
  let q₂ : QueueWithStorage T := { q₁ with storage := q₁.storage.putTokens 0 l }
  have h₂ : Carries q₂ 0 [] [] := by
    refine ⟨?_, fun i hi => absurd hi (Nat.not_lt_zero i), holds_nil⟩
    show Areas q₁.toQueueFRVWPtr 0 0 0
    rw [hq₁]
    exact ha
  have hheld : Holds q₂.fsize q₂.storage q₂.windex l := by
    intro i hi
    show q₁.storage.putTokens 0 l (add q₁.fsize q₁.windex i) = _
    rw [show q₁.windex = 0 by rw [hq₁]; rfl, hsize, add_eq hm (by omega), if_pos (by omega),
      Storage.putTokens_apply, if_pos (by omega), Nat.zero_add, Nat.sub_zero]
  have hfree : l.length ≤ q₂.freeCount := by
    rw [h₂.areas.freeCount_eq]
    show _ ≤ q₁.fsize - 1 - _
    rw [hsize]
    simp only [List.length_nil]
    omega
  obtain ⟨q₃, hwpp, h₃, hsize₃, _⟩ := h₂.wpp (b := b) hfree hheld
  obtain ⟨q₄, hvpp, h₄, hsize₄, _⟩ := h₃.vpp (b := b) (n := l.length) (Nat.le_of_eq rfl)
  refine ⟨q₄, ?_, ?_, ?_⟩
  · have hdepth : l.length ≤ q₁.depthCount := by rw [QueueRWPtr.depthCount, hsize]; omega
    simp only [QueueWithStorage.doReset, hreset, b.assert_of hdepth, Option.bind_eq_bind, Option.bind_some]
    rw [show ({ q₁ with storage := q₁.storage.putTokens 0 l } : QueueWithStorage T) = q₂ from rfl, hwpp]
    exact hvpp
  · simpa using h₄
  · rw [hsize₄, hsize₃]
    exact hsize

end SysteMoC
