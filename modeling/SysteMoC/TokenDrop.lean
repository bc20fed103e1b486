import SysteMoC.StorageSound

/-!
# Dropped tokens

What a generator yields is a list of positions, on which the loops are those of
`StorageSound`. `dropRInvisible` drops the oldest tokens of the pipeline as long as
their number and their positions fit an `int`.
-/

namespace SysteMoC

open Cyclic

/-! ## Conversions -/

theorem toInt_eq (n : Nat) : toInt n =
    if (n : Int) % 4294967296 < 2147483648 then (n : Int) % 4294967296 else (n : Int) % 4294967296 - 4294967296 := rfl

theorem toSize_eq (n : Int) : toSize n = (n % 18446744073709551616).toNat := rfl

theorem toInt_of_lt {n : Nat} (h : n < 2 ^ 31) : toInt n = n := by
  rw [toInt_eq, if_pos (by omega)]
  omega

theorem toSize_of_lt {n : Nat} (h : n < 2 ^ 64) : toSize n = n := by
  rw [toSize_eq]
  omega

theorem toInt_spec (n : Nat) : ∃ j : Nat, (n : Int) = toInt n + j * 4294967296 ∧ toInt n < 2147483648 := by
  rw [toInt_eq]
  split
  · exact ⟨n / 2 ^ 32, by omega⟩
  · exact ⟨n / 2 ^ 32 + 1, by omega⟩

theorem lt_of_toInt {n : Nat} (h : toInt n = n) : n < 2147483648 := by
  obtain ⟨_, _, hlt⟩ := toInt_spec n
  omega

/-- A count that comes back from `int` and from a loop of as many rounds. -/
theorem toInt_of_counted {n : Nat} {k s : Int} (hpos : 0 < n) (hk : toSize k = n) (hlow : s - s ≤ k)
    (hhigh : k < s - s + ((toInt n).toNat + 1 : Nat)) : toInt n = n ∧ k = n := by
  obtain ⟨j, hj, hlt⟩ := toInt_spec n
  rw [toSize_eq] at hk
  omega

/-- The positions of `InvalidateTokenGenerator`. -/
def dropPositions (n : Nat) : List Nat := (List.range n).reverse

theorem dropPositions_succ (n : Nat) : dropPositions (n + 1) = n :: dropPositions n := by
  rw [dropPositions, List.range_succ, List.reverse_append]
  rfl

theorem length_dropPositions (n : Nat) : (dropPositions n).length = n := by
  rw [dropPositions, List.length_reverse, List.length_range]

theorem descending_dropPositions (n : Nat) : Descending n (dropPositions n) := by
  induction n with
  | zero => trivial
  | succ n ih =>
    rw [dropPositions_succ]
    exact ⟨Nat.lt_succ_self n, ih⟩

theorem eraseAll_dropPositions {T : Type} {l : List T} {n : Nat} (hn : n ≤ l.length) :
    eraseAll l (dropPositions n) = l.drop n := by
  induction n generalizing l with
  | zero => rfl
  | succ n ih =>
    rw [dropPositions_succ, eraseAll_cons, ih (by rw [List.length_eraseIdx_of_lt (by omega)]; omega),
      List.eraseIdx_eq_take_drop_succ, List.drop_left' (List.length_take_of_le (by omega))]

theorem toInt_add_offset {n v d p : Nat} (hd : (d : Int) + n - 1 = toInt (n - 1 + v)) (hp : p ∈ dropPositions n) :
    toInt (p + v) = ((p + d : Nat) : Int) := by
  have hlt := (descending_dropPositions n).lt p hp
  obtain ⟨j, hj, hhigh⟩ := toInt_spec (n - 1 + v)
  rw [toInt_eq (p + v)]
  split <;> omega

theorem offset_lt {n v d : Nat} (hpos : 0 < n) (hlt : n < 2147483648) (hd : (d : Int) + n - 1 = toInt (n - 1 + v)) :
    (toInt (n - 1 + v) + 1).toNat = d + n ∧ (v + n ≤ 2147483648 ∨ d + n < v) := by
  obtain ⟨j, hj, hhigh⟩ := toInt_spec (n - 1 + v)
  omega

namespace TokenGenerator

variable {G T : Type} [TokenGenerator G]

/-- The positions up to the first answer -1. -/
inductive Yields : G → List Nat → Prop
  | nil {g : G} (h : (popMax g).1 = -1) : Yields g []
  | cons {g : G} {p : Nat} {ps : List Nat} (h : (popMax g).1 = p) (hps : Yields (popMax g).2 ps) : Yields g (p :: ps)

/-! ## The generators of the source -/

theorem yields_invalidateTokenGenerator (n : Nat) : Yields (⟨n⟩ : InvalidateTokenGenerator) (dropPositions n) := by
  induction n with
  | zero => exact .nil rfl
  | succ n ih =>
    have hpop : popMax (⟨(n + 1 : Nat)⟩ : InvalidateTokenGenerator) = ((n : Int), ⟨n⟩) := by
      simp [popMax]
    rw [dropPositions_succ]
    refine .cons (by rw [hpop]) ?_
    rw [hpop]
    exact ih

theorem Yields.wrapInt {g : G} {ps : List Nat} {offset d : Nat} (h : Yields g ps)
    (hd : ∀ p ∈ ps, toInt (p + offset) = ((p + d : Nat) : Int)) :
    Yields (⟨g, offset⟩ : DropRInvisibleWrapGenerator G) (ps.map (· + d)) := by
  induction h with
  | @nil g h =>
    refine .nil ?_
    show (if 0 ≤ (popMax g).1 then _ else (popMax g).1) = -1
    rw [h]
    rfl
  | @cons g p ps h hps ih =>
    refine .cons ?_ (ih fun p' hp' => hd p' (List.mem_cons_of_mem _ hp'))
    show (if 0 ≤ (popMax g).1 then toInt ((popMax g).1.toNat + offset) else (popMax g).1) = _
    rw [h, if_pos (Int.natCast_nonneg p)]
    exact hd p List.mem_cons_self

theorem Yields.wrap {g : G} {ps : List Nat} {offset : Nat} (h : Yields g ps) (hlt : ∀ p ∈ ps, p + offset < 2 ^ 31) :
    Yields (⟨g, offset⟩ : DropRInvisibleWrapGenerator G) (ps.map (· + offset)) :=
  h.wrapInt fun p hp => toInt_of_lt (hlt p hp)

/-! ## The loops on a list of positions -/

section
variable [Token T] {q q' : QueueWithStorage T} {g : G} {ps : List Nat}

theorem moveLoop_yields (h : Yields g ps) : ∀ (st : Storage T) (srcPos dstPos : Int) (fuel : Nat), -1 ≤ srcPos →
    ps.length + 1 < fuel → moveLoop q fuel g st srcPos dstPos = q.moveLoop ps st srcPos dstPos := by
  induction h with
  | @nil g h =>
    intro st srcPos dstPos fuel hsrc hfuel
    obtain ⟨fuel, rfl⟩ := Nat.exists_eq_add_of_le' (show 2 ≤ fuel from hfuel)
    rw [moveLoop, QueueWithStorage.moveLoop, h]
    by_cases hend : srcPos = -1
    · rw [if_pos hend, if_pos hend]
    · rw [if_neg hend, if_neg hend]
      have hn : (srcPos - 1 - (-1)).toNat = srcPos.toNat := by omega
      have hlast : srcPos - 1 - (srcPos.toNat : Int) = -1 := by omega
      simp only [hn, hlast]
      rfl
  | @cons g p ps h hps ih =>
    intro st srcPos dstPos fuel hsrc hfuel
    rw [List.length_cons] at hfuel
    obtain ⟨fuel, rfl⟩ := Nat.exists_eq_add_of_le' (show 1 ≤ fuel by omega)
    rw [moveLoop, QueueWithStorage.moveLoop, h]
    by_cases hend : srcPos = -1
    · rw [if_pos hend, if_pos hend]
    · rw [if_neg hend, if_neg hend]
      refine congrArg (Option.bind _) (funext fun r => ?_)
      exact ih r.1 _ r.2 fuel (by omega) (by omega)

theorem moveTokensRight_yields (h : Yields g ps) {fuel : Nat} (hfuel : ps.length < fuel) :
    moveTokensRight fuel q g = q.moveTokensRight ps := by
  cases h with
  | nil h =>
    obtain ⟨fuel, rfl⟩ := Nat.exists_eq_add_of_le' (show 1 ≤ fuel from hfuel)
    rw [moveTokensRight, h]
    rfl
  | cons h hps =>
    rw [moveTokensRight, h]
    exact moveLoop_yields hps _ _ _ _ (by omega) hfuel

theorem moveLoop_bounds {fuel : Nat} : ∀ {g : G} {st st' : Storage T} {srcPos dstPos k : Int},
    moveLoop q fuel g st srcPos dstPos = some (st', k) →
    k ≤ dstPos + 1 ∧ dstPos - srcPos ≤ k ∧ k < dstPos - srcPos + fuel := by
  induction fuel with
  | zero =>
    intro _ _ _ _ _ _ h
    cases h
  | succ fuel ih =>
    intro g st st' srcPos dstPos k h
    rw [moveLoop] at h
    split at h
    · cases h
      omega
    · obtain ⟨⟨st₁, dst⟩, hr, h⟩ := Option.bind_eq_some_iff.mp h
      have hdst := QueueWithStorage.shiftLoop_dst hr
      have := ih h
      omega

end

end TokenGenerator

/-! ## Drops that fit -/

variable {T : Type} [Token T] {b : Build} {q q' : QueueWithStorage T} {n v : Nat}

theorem dropFits_iff (hT : Token.isVoid T = false) : DropFits T v n ↔ n = 0 ∨ n < 2147483648 ∧ v + n ≤ 2147483648 := by
  simp [DropFits, hT]

theorem DropFits.size (h : DropFits T v n) (hT : Token.isVoid T = true) : toSize (toInt n) = n := by
  simpa [DropFits, hT] using h

namespace QueueWithStorage

/-- Where the tokens have values, the oldest ones are dropped one by one. -/
theorem dropRInvisible_eq_dropAt (hT : Token.isVoid T = false) (h : DropFits T q.visibleCount n) :
    q.dropRInvisible b (⟨toInt n⟩ : InvalidateTokenGenerator) = q.dropAt b (dropPositions n) := by
  have hfit := (dropFits_iff hT).mp h
  have hint : toInt n = n := toInt_of_lt (by omega)
  have hyields : TokenGenerator.Yields (⟨⟨toInt n⟩, q.visibleCount⟩ : DropRInvisibleWrapGenerator InvalidateTokenGenerator)
      ((dropPositions n).map (· + q.visibleCount)) := by
    rw [hint]
    refine (TokenGenerator.yields_invalidateTokenGenerator n).wrap fun p hp => ?_
    have := (descending_dropPositions n).lt p hp
    omega
  rw [dropRInvisible, dropAt, if_neg (by rw [hT]; exact Bool.false_ne_true), TokenGenerator.count_wrap,
    TokenGenerator.count_invalidate, hint, Int.toNat_natCast, ← hint,
    TokenGenerator.moveTokensRight_yields hyields (by rw [List.length_map, length_dropPositions]; exact Nat.lt_succ_self n)]
  refine Option.bind_congr fun r hr => ?_
  have hlen := moveTokensRight_count ((descending_dropPositions n).map_add (k := q.visibleCount)) hr
  rw [List.length_map, length_dropPositions] at hlen
  simp only [hlen, Int.toNat_natCast]
  rw [toSize_of_lt (by omega)]

theorem dropRInvisible_void (hT : Token.isVoid T = true) (h : DropFits T q.visibleCount n) :
    q.dropRInvisible b (⟨toInt n⟩ : InvalidateTokenGenerator) = (q.toQueueFRVWPtr.dropRInvisible b n).map fun base =>
      { toQueueFRVWPtr := base, storage := q.storage.clear q.fsize q.rindex n } := by
  rw [dropRInvisible, if_pos hT]
  simp only [moveTokensRightVoid, TokenGenerator.count_wrap, TokenGenerator.count_invalidate, h.size hT,
    Option.bind_eq_bind, Option.bind_some]
  cases q.toQueueFRVWPtr.dropRInvisible b n <;> rfl

theorem dropRInvisible_base (h : DropFits T q.visibleCount n)
    (hq : q.dropRInvisible b (⟨toInt n⟩ : InvalidateTokenGenerator) = some q') :
    q.toQueueFRVWPtr.dropRInvisible b n = some q'.toQueueFRVWPtr := by
  cases hT : Token.isVoid T with
  | false =>
    rw [dropRInvisible_eq_dropAt hT h] at hq
    have hbase := dropAt_base (descending_dropPositions n) hq
    rwa [length_dropPositions] at hbase
  | true =>
    rw [dropRInvisible_void hT h] at hq
    obtain ⟨base, hbase, heq⟩ := Option.map_eq_some_iff.mp hq
    cases heq
    exact hbase

end QueueWithStorage

theorem Token.list_eq (hT : Token.isVoid T = true) {l l' : List T} (h : l.length = l'.length) : l = l' :=
  List.ext_getElem h fun _ _ _ => Token.void_eq hT _ _

namespace Carries

variable {c : Nat} {visible pipeline : List T}

/-- `void` tokens lose their slots at the front. -/
theorem dropVoid (hT : Token.isVoid T = true) (h : Carries q c visible pipeline) (hn : n ≤ pipeline.length)
    (hfit : DropFits T visible.length n) :
    ∃ q', q.dropRInvisible b (⟨toInt n⟩ : InvalidateTokenGenerator) = some q' ∧ Carries q' c visible (pipeline.drop n) ∧
      q'.fsize = q.fsize ∧ Fresh q q' 0 := by
  have hf := h.areas.fits
  have hclear : ∀ k, k < q.fsize → q.storage.clear q.fsize q.rindex n (add q.fsize q.rindex k) =
      if k < n then none else q.storage (add q.fsize q.rindex k) :=
    fun k hk => Storage.clear_add h.areas.rindex_lt (by omega) hk
  obtain ⟨base, hbase, _⟩ := h.areas.dropRInvisible_eq (b := b) hn
  have hgap : Clear q.fsize (q.storage.clear q.fsize q.rindex n) q.rindex n := by
    intro i hi
    rw [hclear i (by omega), if_pos hi]
  have hheld : Holds q.fsize (q.storage.clear q.fsize q.rindex n) (add q.fsize q.rindex n) (visible ++ pipeline.drop n) := by
    intro i hi
    rw [List.length_append, List.length_drop] at hi
    have heq : visible ++ pipeline.drop n = (visible ++ pipeline).drop n :=
      Token.list_eq hT (by simp only [List.length_append, List.length_drop]; omega)
    rw [add_add, hclear _ (by omega), if_neg (by omega), h.held _ (by rw [List.length_append]; omega), heq,
      List.getElem?_drop]
  obtain ⟨hcar, hsize, hfresh⟩ := h.dropped (by rw [List.length_drop]; omega) hbase hgap hheld fun i hi hi' => by
    rw [hclear i hi', if_neg (by omega)]
  rw [← h.areas.visibleCount_eq] at hfit
  refine ⟨_, ?_, hcar, hsize, hfresh⟩
  rw [QueueWithStorage.dropRInvisible_void hT hfit, hbase]
  rfl

/-- A drop that fits removes the oldest tokens of the pipeline. -/
theorem dropRInvisible (h : Carries q c visible pipeline) (hn : n ≤ pipeline.length)
    (hfit : DropFits T visible.length n) :
    ∃ q', q.dropRInvisible b (⟨toInt n⟩ : InvalidateTokenGenerator) = some q' ∧ Carries q' c visible (pipeline.drop n) ∧
      q'.fsize = q.fsize ∧ Fresh q q' 0 := by
  cases hT : Token.isVoid T with
  | true => exact h.dropVoid hT hn hfit
  | false =>
    rw [← h.areas.visibleCount_eq] at hfit
    obtain ⟨q', hq, hcar, hsize, hfresh⟩ := h.dropAt (b := b) ((descending_dropPositions n).mono hn)
    rw [eraseAll_dropPositions hn] at hcar
    exact ⟨q', (QueueWithStorage.dropRInvisible_eq_dropAt hT hfit).trans hq, hcar, hsize, hfresh⟩

/-! ## Drops that free the right number of slots -/

omit [Token T] in
/-- The assertions of a checked build know the pipeline. -/
theorem free_of_dropped (h : Carries q c visible pipeline) {base : QueueFRVWPtr}
    (hbase : q.toQueueFRVWPtr.dropRInvisible .checked n = some base) : n ≤ pipeline.length ∧ base.freeCount = q.freeCount + n := by
  have hf := h.areas.fits
  have hle : n ≤ pipeline.length := by
    simp only [QueueFRVWPtr.dropRInvisible, QueueRVWPtr.dropRInvisible, QueueRVWPtr.vpp, Option.bind_eq_bind,
      Option.bind_eq_some_iff] at hbase
    obtain ⟨_, ⟨_, ⟨_, _, _, hassert, _⟩, _⟩, _⟩ := hbase
    rw [← h.areas.pipeline_eq]
    by_contra hlt
    simp [Build.assert, Build.checked, hlt] at hassert
  obtain ⟨base', hbase', ha, hsize, _⟩ := h.areas.dropRInvisible_eq (b := .checked) hle
  rw [hbase, Option.some.injEq] at hbase'
  subst hbase'
  refine ⟨hle, ?_⟩
  rw [ha.freeCount_eq, h.areas.freeCount_eq, hsize]
  omega

theorem free_of_droppedVoid (hT : Token.isVoid T = true) (h : Carries q c visible pipeline)
    (hq : q.dropRInvisible .checked (⟨toInt n⟩ : InvalidateTokenGenerator) = some q') :
    q'.freeCount = q.freeCount + toSize (toInt n) := by
  rw [QueueWithStorage.dropRInvisible, if_pos hT] at hq
  simp only [QueueWithStorage.moveTokensRightVoid, TokenGenerator.count_wrap, TokenGenerator.count_invalidate,
    Option.bind_eq_bind, Option.bind_some] at hq
  obtain ⟨base, hbase, heq⟩ := Option.bind_eq_some_iff.mp hq
  cases heq
  exact (h.free_of_dropped hbase).2

/-- As many tokens are gone as slots are free, but not the oldest ones of the pipeline where
`int` does not hold their positions. -/
theorem erased (hT : Token.isVoid T = false) (h : Carries q c visible pipeline) (hn : n ≤ pipeline.length) (hpos : 0 < n)
    (hq : q.dropRInvisible .checked (⟨toInt n⟩ : InvalidateTokenGenerator) = some q')
    (hfree : q'.freeCount = q.freeCount + n) :
    n < 2147483648 ∧ q'.fsize = q.fsize ∧ q'.rindex < q'.fsize ∧ ∃ d : Nat, (d : Int) + n - 1 = toInt (n - 1 + visible.length) ∧
      Holds q'.fsize q'.storage q'.rindex ((visible ++ pipeline).take d ++ (visible ++ pipeline).drop (d + n)) := by
  have hf := h.areas.fits
  rw [QueueWithStorage.dropRInvisible, if_neg (by rw [hT]; exact Bool.false_ne_true)] at hq
  obtain ⟨⟨st, k⟩, hmove, hq⟩ := Option.bind_eq_some_iff.mp hq
  obtain ⟨base, hbase, heq⟩ := Option.bind_eq_some_iff.mp hq
  cases heq
  rw [TokenGenerator.count_wrap, TokenGenerator.count_invalidate] at hmove
  -- all of them are counted, each in a round of its own
  have hk : toSize k = n := by
    have := (h.free_of_dropped hbase).2
    change base.freeCount = _ at hfree
    omega
  have hbounds := TokenGenerator.moveLoop_bounds hmove
  clear hfree
  obtain ⟨hint, rfl⟩ := toInt_of_counted hpos hk hbounds.2.1 hbounds.2.2
  -- the first position is not below them
  have hstart : (TokenGenerator.popMax (⟨⟨toInt n⟩, q.visibleCount⟩ : DropRInvisibleWrapGenerator InvalidateTokenGenerator)).1 =
      toInt (n - 1 + visible.length) := by
    rw [TokenGenerator.popMax_wrap, TokenGenerator.popMax_invalidate, hint, if_pos (by omega), h.areas.visibleCount_eq,
      show ((n : Int) - 1).toNat = n - 1 by omega]
  rw [hstart] at hbounds
  obtain ⟨d, hd⟩ := Int.eq_ofNat_of_zero_le (show 0 ≤ toInt (n - 1 + visible.length) + 1 - n by omega)
  have hd : (d : Int) + n - 1 = toInt (n - 1 + visible.length) := by omega
  obtain ⟨i, hi, hi'⟩ := toInt_spec (n - 1 + visible.length)
  -- and so are the others
  have hyields : TokenGenerator.Yields (⟨⟨toInt n⟩, q.visibleCount⟩ : DropRInvisibleWrapGenerator InvalidateTokenGenerator)
      ((dropPositions n).map (· + d)) := by
    rw [hint, h.areas.visibleCount_eq]
    exact (TokenGenerator.yields_invalidateTokenGenerator n).wrapInt fun p hp => toInt_add_offset hd hp
  have hdesc : Descending (visible ++ pipeline).length ((dropPositions n).map (· + d)) := by
    refine ((descending_dropPositions n).map_add (k := d)).mono ?_
    rw [List.length_append]
    omega
  rw [hint, Int.toNat_natCast, ← hint,
    TokenGenerator.moveTokensRight_yields hyields (by rw [List.length_map, length_dropPositions]; exact Nat.lt_succ_self n)]
    at hmove
  obtain ⟨st', hmove', _, hheld, _⟩ :=
    QueueWithStorage.moveTokensRight_eq h.areas.rindex_lt (by rw [List.length_append]; omega) hdesc h.held
  rw [hmove, Option.some.injEq, Prod.mk.injEq] at hmove'
  obtain ⟨rfl, -⟩ := hmove'
  obtain ⟨base', hbase', ha, hsize, _, hrindex, _⟩ := h.areas.dropRInvisible_eq (b := .checked) hn
  rw [hk, hbase'] at hbase
  cases hbase
  refine ⟨lt_of_toInt hint, hsize, ha.rindex_lt, d, hd, ?_⟩
  show Holds base.fsize st base.rindex _
  have herase : eraseAll (visible ++ pipeline) ((dropPositions n).map (· + d)) =
      (visible ++ pipeline).take d ++ (visible ++ pipeline).drop (d + n) := by
    have hlen : ((visible ++ pipeline).take d).length = d := by
      rw [List.length_take, List.length_append]
      omega
    have hsplit := eraseAll_map_add ((visible ++ pipeline).take d) ((visible ++ pipeline).drop d) (dropPositions n)
    rw [List.take_append_drop, hlen, eraseAll_dropPositions (by rw [List.length_drop, List.length_append]; omega),
      List.drop_drop] at hsplit
    exact hsplit
  rw [List.length_map, length_dropPositions, herase] at hheld
  rw [hsize, hrindex]
  exact hheld

end Carries

end SysteMoC
