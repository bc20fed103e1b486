import SysteMoC.Channel

/-!
# Destruction of consumed tokens

Which slots of a channel hold a token object: the visible and the pipeline area,
and the free slots its writer has filled. Slots that are filled are addressed by
their position on the ring, which a reset does not change.
-/

namespace SysteMoC

open Cyclic FifoChan

variable {T : Type}

/-- The slots that hold a token are those in use and the filled ones. -/
structure Tidy (q : QueueWithStorage T) (filled : Nat → Bool) (c : Nat) (visible pipeline : List T) : Prop where
  carries : Carries q c visible pipeline
  free : ∀ i ≤ q.freeCount, (q.storage (add q.fsize q.windex i)).isSome = filled (add q.fsize q.windex i)
  used : ∀ i < c + visible.length + pipeline.length, filled (add q.fsize q.findex i) = false

namespace Tidy

variable {q q' : QueueWithStorage T} {filled : Nat → Bool} {c c' n k : Nat} {visible pipeline visible' pipeline' : List T}
  {b : Build}

theorem freeCount_eq (h : Tidy q filled c visible pipeline) :
    q.freeCount = q.fsize - 1 - (c + visible.length + pipeline.length) := h.carries.areas.freeCount_eq

/-- The writer's position stays, the slots in use become fewer. -/
theorem shrink (h : Tidy q filled c visible pipeline) (hcar : Carries q' c' visible' pipeline')
    (hsize : q'.fsize = q.fsize) (hw : q'.windex = q.windex) (hfresh : Fresh q q' 0)
    (hused : ∀ j < c' + visible'.length + pipeline'.length, ∃ i < c + visible.length + pipeline.length,
      add q.fsize q'.findex j = add q.fsize q.findex i) : Tidy q' filled c' visible' pipeline' := by
  have hfits := h.carries.areas.fits
  refine ⟨hcar, fun i hi => ?_, fun j hj => ?_⟩
  · have hbound := hi
    rw [hcar.areas.freeCount_eq, hsize] at hbound
    rw [hfresh i hi, hsize, hw]
    split
    · rename_i hle
      exact h.free i hle
    · rename_i hgt
      -- a slot that was in use before
      rw [h.freeCount_eq] at hgt
      have hslot : add q.fsize q.windex i = add q.fsize q.findex
          (c + visible.length + pipeline.length + i - q.fsize) := by
        rw [h.carries.areas.windex_eq, add_add, show c + visible.length + pipeline.length + i =
          c + visible.length + pipeline.length + i - q.fsize + q.fsize by omega, ← add_add,
          add_self (add_lt h.carries.areas.fsize_pos), Nat.add_sub_cancel]
      rw [hslot, h.used _ (by omega)]
      rfl
  · obtain ⟨i, hi, heq⟩ := hused j hj
    rw [hsize, heq]
    exact h.used i hi

theorem rpp (h : Tidy q filled c visible pipeline) (hn : n ≤ visible.length) (hq : q.rpp b n = some q') :
    Tidy q' filled (c + n) (visible.drop n) pipeline ∧ q'.fsize = q.fsize := by
  obtain ⟨q₁, hq₁, hcar, hsize, hfresh⟩ := h.carries.rpp (b := b) hn
  rw [hq, Option.some.injEq] at hq₁
  subst hq₁
  have hbase := QueueWithStorage.rpp_base hq
  rw [h.carries.areas.rpp_eq hn, Option.some.injEq] at hbase
  refine ⟨h.shrink hcar hsize (by rw [← hbase]) hfresh fun j hj => ⟨j, ?_, by rw [← hbase]⟩, hsize⟩
  rw [List.length_drop] at hj
  omega

theorem rpp_zero (h : Tidy q filled c visible pipeline) {base : QueueFRVWPtr} (hq : q.toQueueFRVWPtr.rpp b 0 = some base) :
    Tidy { q with toQueueFRVWPtr := base } filled c visible pipeline := by
  rw [h.carries.areas.rpp_eq (Nat.zero_le _), add_zero h.carries.areas.rindex_lt, Option.some.injEq] at hq
  subst hq
  exact ⟨⟨h.carries.areas, h.carries.cleared, h.carries.held⟩, h.free, h.used⟩

theorem vpp (h : Tidy q filled c visible pipeline) (hn : n ≤ pipeline.length) (hq : q.vpp b n = some q') :
    Tidy q' filled c (visible ++ pipeline.take n) (pipeline.drop n) ∧ q'.fsize = q.fsize := by
  obtain ⟨q₁, hq₁, hcar, hsize, hfresh⟩ := h.carries.vpp (b := b) hn
  rw [hq, Option.some.injEq] at hq₁
  subst hq₁
  have hbase := QueueWithStorage.vpp_base hq
  rw [h.carries.areas.vpp_eq hn, Option.some.injEq] at hbase
  refine ⟨h.shrink hcar hsize (by rw [← hbase]) hfresh fun j hj => ⟨j, ?_, by rw [← hbase]⟩, hsize⟩
  rw [List.length_append, List.length_take_of_le hn, List.length_drop] at hj
  omega

theorem fpp (h : Tidy q filled c visible pipeline) (hn : n ≤ c) (hq : q.fpp b n = some q') :
    Tidy q' filled (c - n) visible pipeline ∧ q'.fsize = q.fsize := by
  obtain ⟨q₁, hq₁, hcar, hsize, hfresh⟩ := h.carries.fpp (b := b) hn
  rw [hq, Option.some.injEq] at hq₁
  subst hq₁
  have hbase := QueueWithStorage.fpp_base hq
  rw [h.carries.areas.fpp_eq hn, Option.some.injEq] at hbase
  refine ⟨h.shrink hcar hsize (by rw [← hbase]) hfresh fun j hj => ⟨n + j, by omega, ?_⟩, hsize⟩
  rw [← hbase, add_add]

theorem dropRInvisible [Token T] (h : Tidy q filled c visible pipeline) (hn : n ≤ pipeline.length)
    (hfit : DropFits T visible.length n) (hq : q.dropRInvisible b (⟨toInt n⟩ : InvalidateTokenGenerator) = some q') :
    Tidy q' filled c visible (pipeline.drop n) ∧ q'.fsize = q.fsize := by
  obtain ⟨q₁, hq₁, hcar, hsize, hfresh⟩ := h.carries.dropRInvisible (b := b) hn hfit
  rw [hq, Option.some.injEq] at hq₁
  subst hq₁
  obtain ⟨base, hbase, _, _, hfindex, _, hwindex⟩ := h.carries.areas.dropRInvisible_eq (b := b) hn
  rw [← h.carries.areas.visibleCount_eq] at hfit
  rw [QueueWithStorage.dropRInvisible_base hfit hq, Option.some.injEq] at hbase
  refine ⟨h.shrink hcar hsize (by rw [hbase, hwindex]) hfresh fun j hj => ⟨n + j, ?_, ?_⟩, hsize⟩
  · rw [List.length_drop] at hj
    omega
  · rw [hbase, hfindex, add_add]

theorem put (h : Tidy q filled c visible pipeline) {i : Nat} (hi : i < q.freeCount) (t : T) :
    Tidy { q with storage := q.storage.put (add q.fsize q.windex i) t }
      (Function.update filled (add q.fsize q.windex i) true) c visible pipeline := by
  have hfits := h.carries.areas.fits
  have hi' := hi
  rw [h.freeCount_eq] at hi'
  refine ⟨h.carries.put hi t, fun j hj => ?_, fun j hj => ?_⟩
  · change (Function.update q.storage (add q.fsize q.windex i) (some t) (add q.fsize q.windex j)).isSome = _
    by_cases hji : add q.fsize q.windex j = add q.fsize q.windex i
    · rw [hji, Function.update_self, Function.update_self]
      rfl
    · rw [Function.update_of_ne hji, Function.update_of_ne hji]
      exact h.free j hj
  · have hne : add q.fsize q.findex j ≠ add q.fsize q.windex i := by
      rw [h.carries.areas.windex_eq, add_add]
      intro heq
      have := (add_inj h.carries.areas.findex_lt (by omega) (by omega)).mp heq
      omega
    change Function.update filled _ true (add q.fsize q.findex j) = false
    rw [Function.update_of_ne hne]
    exact h.used j hj

theorem wpp (h : Tidy q filled c visible pipeline) (hk : k ≤ q.freeCount)
    (hw : ∀ i < k, filled (add q.fsize q.windex i) = true) (hq : q.wpp b k = some q') :
    (∃ ts, Tidy q' (fun s => filled s && !decide (∃ i < k, s = add q.fsize q.windex i)) c visible (pipeline ++ ts)) ∧
      q'.fsize = q.fsize := by
  have hfits := h.carries.areas.fits
  have hk' := hk
  rw [h.freeCount_eq] at hk'
  have hsome : ∀ i < k, (q.storage (add q.fsize q.windex i)).isSome := by
    intro i hi
    rw [h.free i (by omega), hw i hi]
  let ts := Pick.tabulate (fun i => q.storage (add q.fsize q.windex i)) k
  have hlen : ts.length = k := Pick.length_tabulate hsome
  have hheld : Holds q.fsize q.storage q.windex ts := by
    intro i hi
    rw [hlen] at hi
    exact (Pick.getElem?_tabulate hsome hi).symm
  obtain ⟨q₁, hq₁, hcar, hsize, hfresh⟩ := h.carries.wpp (b := b) (by rw [hlen]; exact hk) hheld
  rw [hlen, hq, Option.some.injEq] at hq₁
  subst hq₁
  have hbase := QueueWithStorage.wpp_base hq
  rw [h.carries.areas.wpp_eq hk, Option.some.injEq] at hbase
  have hfree := hcar.areas.freeCount_eq
  rw [List.length_append, hlen, hsize] at hfree
  have hwindex : q'.windex = add q.fsize q.windex k := by rw [← hbase]
  have hfindex : q'.findex = q.findex := by rw [← hbase]
  refine ⟨⟨ts, hcar, fun i hi => ?_, fun j hj => ?_⟩, hsize⟩
  · have hother : ¬ ∃ j < k, add q.fsize q.windex (k + i) = add q.fsize q.windex j := by
      rintro ⟨j, hj, heq⟩
      have := (add_inj h.carries.areas.windex_lt (by omega) (by omega)).mp heq
      omega
    rw [hfresh i hi, hlen, if_pos (by rw [h.freeCount_eq]; omega), hsize, hwindex, add_add, Nat.add_comm i k,
      h.free (k + i) (by rw [h.freeCount_eq]; omega), decide_eq_false hother, Bool.not_false, Bool.and_true]
  · rw [List.length_append, hlen] at hj
    rw [hsize, hfindex]
    by_cases hlt : j < c + visible.length + pipeline.length
    · rw [h.used j hlt, Bool.false_and]
    · have hin : ∃ i < k, add q.fsize q.findex j = add q.fsize q.windex i := by
        refine ⟨j - (c + visible.length + pipeline.length), by omega, ?_⟩
        rw [h.carries.areas.windex_eq, add_add]
        congr 1
        omega
      rw [decide_eq_true hin, Bool.not_true, Bool.and_false]

theorem isSome_eq (h : Tidy q filled c visible pipeline) {j : Nat} (hj : j < q.fsize) :
    (q.storage (add q.fsize q.findex j)).isSome =
      (decide (c ≤ j ∧ j < c + visible.length + pipeline.length) || filled (add q.fsize q.findex j)) := by
  by_cases hc : j < c
  · rw [h.carries.cleared j hc, h.used j (by omega), decide_eq_false (by omega)]
    rfl
  · by_cases hu : j < c + visible.length + pipeline.length
    · have hheld := h.carries.held (j - c) (by rw [List.length_append]; omega)
      rw [h.carries.slot_rindex, show c + (j - c) = j by omega] at hheld
      rw [hheld, decide_eq_true (by omega), Bool.true_or, List.getElem?_eq_getElem (by rw [List.length_append]; omega)]
      rfl
    · have hfree := h.free (j - (c + visible.length + pipeline.length)) (by rw [h.freeCount_eq]; omega)
      rw [h.carries.areas.windex_eq, add_add,
        show c + visible.length + pipeline.length + (j - (c + visible.length + pipeline.length)) = j by omega] at hfree
      rw [hfree, decide_eq_false (by omega), Bool.false_or]

end Tidy

/-! ## Reset -/

namespace QueueWithStorage

variable {q q' : QueueWithStorage T} {b : Build} {l : List T} {n : Nat}

theorem resetQueue_eq (h : q.resetQueue b = some q') (hr : q.rindex < q.fsize) (hw : q.windex < q.fsize) :
    q'.toQueueFRVWPtr = q.toQueueFRVWPtr.resetQueue ∧ ∀ i < q.fsize,
      q'.storage (add q.fsize q.rindex i) = if i < q.usedCount then none else q.storage (add q.fsize q.rindex i) := by
  obtain ⟨_, _, heq⟩ := Option.bind_eq_some_iff.mp h
  cases heq
  refine ⟨rfl, fun i hi => ?_⟩
  rw [QueueRWPtr.usedCount, sub_eq hw hr, add_eq hr (Nat.le_of_lt hi)]
  simp only [Storage.invalidateFrom_apply]
  by_cases hle : q.rindex ≤ q.windex
  · simp only [if_pos hle]
    split
    · rw [if_neg (by omega)]
      by_cases hlt : i < q.windex - q.rindex
      · rw [if_pos (by omega), if_pos hlt]
      · rw [if_neg (by omega), if_neg hlt]
    · rw [if_neg (by omega), if_neg (by omega), if_neg (by omega)]
  · simp only [if_neg hle]
    split
    · rw [if_neg (by omega), if_pos (by omega), if_pos (by omega)]
    · by_cases hlt : i < q.windex + q.fsize - q.rindex
      · rw [if_pos (by omega), if_pos hlt]
      · rw [if_neg (by omega), if_neg (by omega), if_neg hlt]

theorem wpp_storage (h : q.wpp b n = some q') : q'.storage = q.storage ∧ q'.findex = q.findex := by
  obtain ⟨base, hbase, heq⟩ := Option.bind_eq_some_iff.mp h
  cases heq
  refine ⟨rfl, ?_⟩
  obtain ⟨_, _, hbase⟩ := Option.bind_eq_some_iff.mp hbase
  obtain ⟨_, _, hbase⟩ := Option.bind_eq_some_iff.mp hbase
  cases hbase
  rfl

theorem vpp_storage (h : q.vpp b n = some q') : q'.storage = q.storage ∧ q'.findex = q.findex := by
  obtain ⟨base, hbase, heq⟩ := Option.bind_eq_some_iff.mp h
  cases heq
  refine ⟨rfl, ?_⟩
  obtain ⟨_, _, hbase⟩ := Option.bind_eq_some_iff.mp hbase
  cases hbase
  rfl

/-- A reset touches the slots that were in use and those of the initial tokens. -/
theorem doReset_storage (h : q.doReset b l = some q') (hr : q.rindex < q.fsize) (hw : q.windex < q.fsize) :
    q'.findex = 0 ∧ ∀ i < q.fsize, l.length ≤ add q.fsize q.rindex i →
      q'.storage (add q.fsize q.rindex i) = if i < q.usedCount then none else q.storage (add q.fsize q.rindex i) := by
  simp only [doReset, Option.bind_eq_bind, Option.bind_eq_some_iff] at h
  obtain ⟨q₁, hq₁, _, _, q₂, hq₂, hq₃⟩ := h
  obtain ⟨hbase, hst⟩ := resetQueue_eq hq₁ hr hw
  obtain ⟨hst₂, hf₂⟩ := wpp_storage hq₂
  obtain ⟨hst₃, hf₃⟩ := vpp_storage hq₃
  refine ⟨?_, fun i hi hl => ?_⟩
  · rw [hf₃, hf₂]
    simp only [hbase]
    rfl
  · rw [hst₃, hst₂]
    simp only [Storage.putTokens_apply]
    rw [if_neg (by omega)]
    exact hst i hi

end QueueWithStorage

theorem Tidy.doReset {q q' : QueueWithStorage T} {filled : Nat → Bool} {c : Nat} {visible pipeline l : List T} {b : Build}
    (h : Tidy q filled c visible pipeline) (hl : l.length < q.fsize) (hq : q.doReset b l = some q') :
    Tidy q' (fun s => filled s && decide (l.length ≤ s)) 0 l [] ∧ q'.fsize = q.fsize := by
  have ha := h.carries.areas
  have hfits := ha.fits
  have hm := ha.fsize_pos
  obtain ⟨q₁, hq₁, hcar, hsize⟩ := QueueWithStorage.doReset_eq (b := b) ha.rindex_lt hl
  rw [hq, Option.some.injEq] at hq₁
  subst hq₁
  obtain ⟨hfindex, hst⟩ := QueueWithStorage.doReset_storage hq ha.rindex_lt ha.windex_lt
  refine ⟨⟨hcar, fun i hi => ?_, fun j hj => ?_⟩, hsize⟩
  · rw [hcar.areas.freeCount_eq, hsize, List.length_nil] at hi
    have hslot : add q'.fsize q'.windex i = l.length + i := by
      rw [hcar.areas.windex_eq, hfindex, hsize, add_add, List.length_nil, add_eq hm (by omega), if_pos (by omega)]
      omega
    have hlt : l.length + i < q.fsize := by omega
    have hr : add q.fsize q.rindex (sub q.fsize (l.length + i) q.rindex) = l.length + i := add_sub ha.rindex_lt hlt
    have hf : add q.fsize q.findex (sub q.fsize (l.length + i) q.findex) = l.length + i := add_sub ha.findex_lt hlt
    have hvalid := h.isSome_eq (sub_lt (a := l.length + i) (b := q.findex) hm)
    have hat := hst _ (sub_lt hm) (by rw [hr]; omega)
    rw [hf] at hvalid
    rw [hr] at hat
    rw [hslot, hat, decide_eq_true (Nat.le_add_right _ _), Bool.and_true]
    split
    · rename_i hu
      rw [ha.usedCount_eq] at hu
      have hin : l.length + i = add q.fsize q.findex (c + sub q.fsize (l.length + i) q.rindex) := by
        rw [← add_add, ← ha.rindex_eq, hr]
      rw [hin, h.used _ (by omega)]
      rfl
    · rename_i hu
      rw [ha.usedCount_eq] at hu
      rw [hvalid, decide_eq_false, Bool.false_or]
      rintro ⟨hc, hlt'⟩
      -- the slot would be in use
      have hin : add q.fsize q.rindex (sub q.fsize (l.length + i) q.findex - c) = l.length + i := by
        rw [ha.rindex_eq, add_add, show c + (sub q.fsize (l.length + i) q.findex - c) =
          sub q.fsize (l.length + i) q.findex by omega, hf]
      have hback := sub_add_self ha.rindex_lt (k := sub q.fsize (l.length + i) q.findex - c) (by omega)
      rw [hin] at hback
      omega
  · rw [List.length_nil] at hj
    rw [hsize, hfindex, add_eq hm (by omega), if_pos (by omega), decide_eq_false (by omega), Bool.and_false]

/-! ## Dropped tokens -/

section
variable {ε : Type} {b : Build} {ch : FifoChan T ε} {filled : Nat → Bool} {c n : Nat} {visible pipeline : List T}

namespace Tidy

theorem consumingCount_eq (h : Tidy ch.toQueueWithStorage filled c visible pipeline) : ch.consumingCount = c :=
  h.carries.areas.inConsume_eq

theorem visibleCount_eq (h : Tidy ch.toQueueWithStorage filled c visible pipeline) :
    ch.visibleCount = visible.length := h.carries.areas.visibleCount_eq

theorem pipelineCount_eq (h : Tidy ch.toQueueWithStorage filled c visible pipeline) :
    ch.pipelineCount = pipeline.length := h.carries.areas.pipeline_eq

theorem read_eq (h : Tidy ch.toQueueWithStorage filled c visible pipeline) {limit i : Nat} (hi : i < visible.length)
    (hlimit : i < limit) : FifoOutlet.read b ch limit i = visible[i]? := by
  have hfits := h.carries.areas.fits
  rw [FifoOutlet.read, ringRead, b.debugAssert_of hlimit, ringSlot_eq h.carries.areas.rindex_lt (by omega)]
  have hheld := h.carries.held i (by rw [List.length_append]; omega)
  rw [List.getElem?_append_left hi] at hheld
  exact hheld

theorem holds_pipeline (h : Tidy ch.toQueueWithStorage filled c visible pipeline) :
    Holds ch.fsize ch.storage ch.vindex pipeline := by
  have hheld := (holds_append.mp h.carries.held).2
  rwa [← h.carries.areas.vindex_rindex] at hheld

end Tidy

variable [SmocEvent ε] [Token T]

theorem commFinish_dropped_eq (h : Tidy ch.toQueueWithStorage filled c visible pipeline) (hn : n ≤ pipeline.length)
    (hfit : DropFits T visible.length n) :
    ∃ ch', FifoEntry.commFinish b ch n true = some ch' ∧ ch'.fsize = ch.fsize ∧
      Tidy ch'.toQueueWithStorage filled c visible (pipeline.drop n) := by
  obtain ⟨q, hq, _, _, _⟩ := h.carries.dropRInvisible (b := b) hn hfit
  obtain ⟨ht, hsize⟩ := h.dropRInvisible hn hfit hq
  refine ⟨{ ch.withQueue q with emmSpace := ch.emmSpace.increasedCount (ch.withQueue q).freeCount }, ?_, hsize, ht⟩
  simp only [FifoEntry.commFinish, Bool.not_true, Bool.false_eq_true, if_false, FifoChan.latencyExpired_dropped,
    FifoChan.invalidateToken, hq, Option.bind_eq_bind, Option.bind_some]
  rfl

/-- The `n` oldest tokens of the pipeline are gone and their slots free, and nothing else is different. -/
structure OldestDropped (n : Nat) (filled : Nat → Bool) (visible pipeline : List T) (ch ch' : FifoChan T ε) : Prop where
  fsize_eq : ch'.fsize = ch.fsize
  consuming : ch'.consumingCount = ch.consumingCount
  visibleCount_eq : ch'.visibleCount = ch.visibleCount
  pipelineCount_eq : ch'.pipelineCount + n = ch.pipelineCount
  numFree_eq : FifoEntry.numFree ch' = FifoEntry.numFree ch + n
  read_eq : ∀ b, ∀ i < visible.length, ∀ limit, i < limit → FifoOutlet.read b ch' limit i = visible[i]?
  rest : Holds ch'.fsize ch'.storage ch'.vindex (pipeline.drop n)
  valid : ∀ j < ch'.fsize, (ch'.storage (add ch'.fsize ch'.findex j)).isSome =
    (decide (ch'.consumingCount ≤ j ∧ j < ch'.consumingCount + ch'.usedCount) || filled (add ch'.fsize ch'.findex j))

theorem oldestDropped_of_fits (h : Tidy ch.toQueueWithStorage filled c visible pipeline) (hn : n ≤ pipeline.length)
    (hfit : DropFits T visible.length n) :
    ∃ ch', FifoEntry.commFinish b ch n true = some ch' ∧ OldestDropped n filled visible pipeline ch ch' := by
  obtain ⟨ch', hs, hsize, h'⟩ := commFinish_dropped_eq (b := b) h hn hfit
  have hfits := h.carries.areas.fits
  refine ⟨ch', hs, hsize, ?_, ?_, ?_, ?_, fun b i hi limit hlimit => h'.read_eq hi hlimit, h'.holds_pipeline,
    fun j hj => ?_⟩
  · rw [h'.consumingCount_eq, h.consumingCount_eq]
  · rw [h'.visibleCount_eq, h.visibleCount_eq]
  · rw [h'.pipelineCount_eq, h.pipelineCount_eq, List.length_drop]
    omega
  · rw [FifoEntry.numFree, FifoEntry.numFree, h'.freeCount_eq, h.freeCount_eq, hsize, List.length_drop]
    omega
  · rw [h'.isSome_eq hj, h'.consumingCount_eq, h'.carries.areas.usedCount_eq, Nat.add_assoc]

variable (T ε) in
/-- A dropped commit does so for all tokens on a ring of `m` slots with areas of `c`, `v` and `p` from `f` on. -/
def DropsOldest (m f c v p n : Nat) : Prop :=
  ∀ (b : Build) (ch : FifoChan T ε) (filled : Nat → Bool) (visible pipeline : List T), ch.fsize = m → ch.findex = f →
    visible.length = v → pipeline.length = p → Tidy ch.toQueueWithStorage filled c visible pipeline →
    ∃ ch', FifoEntry.commFinish b ch n true = some ch' ∧ OldestDropped n filled visible pipeline ch ch'

omit [SmocEvent ε] [Token T] in
theorem exists_tidy {m f : Nat} (hf : f < m) (hfits : c + visible.length + pipeline.length < m) :
    ∃ ch : FifoChan T ε, ch.fsize = m ∧ ch.findex = f ∧ Tidy ch.toQueueWithStorage (fun _ => false) c visible pipeline := by
  have hm : 0 < m := Nat.lt_of_le_of_lt (Nat.zero_le f) hf
  have hr : add m f c < m := add_lt hm
  let ch : FifoChan T ε :=
    { FifoChan.new 0 [] with
      fsize := m, findex := f, rindex := add m f c, vindex := add m f (c + visible.length)
      windex := add m f (c + visible.length + pipeline.length)
      storage := fun s => (visible ++ pipeline)[sub m s (add m f c)]? }
  have ha : Areas ch.toQueueFRVWPtr c visible.length pipeline.length := ⟨hf, hfits, rfl, rfl, rfl⟩
  have hslot : ∀ i < m, ch.storage (add m (add m f c) i) = (visible ++ pipeline)[i]? := by
    intro i hi
    show (visible ++ pipeline)[sub m (add m (add m f c) i) (add m f c)]? = _
    rw [sub_add_self hr hi]
  refine ⟨ch, rfl, rfl, ⟨ha, fun i hi => ?_, fun i hi => ?_⟩, fun i hi => ?_, fun _ _ => rfl⟩
  · have hback : add m f i = add m (add m f c) (m - c + i) := by
      rw [add_add, show c + (m - c + i) = i + m by omega, ← add_add, add_self (add_lt hm)]
    show ch.storage (add m f i) = none
    rw [hback, hslot _ (by omega), List.getElem?_eq_none (by rw [List.length_append]; omega)]
  · rw [List.length_append] at hi
    exact hslot i (by omega)
  · have hbound := ha.freeCount_eq
    change _ = m - 1 - _ at hbound
    have hw : add m (add m f (c + visible.length + pipeline.length)) i =
        add m (add m f c) (visible.length + pipeline.length + i) := by
      rw [add_add, add_add]
      congr 1
      omega
    show (ch.storage (add m (add m f (c + visible.length + pipeline.length)) i)).isSome = false
    rw [hw, hslot _ (by omega), List.getElem?_eq_none (by rw [List.length_append]; omega)]
    rfl

theorem commFinish_dropped_queue {ch' : FifoChan T ε} (h : FifoEntry.commFinish b ch n true = some ch') :
    ch.toQueueWithStorage.dropRInvisible b (⟨toInt n⟩ : InvalidateTokenGenerator) = some ch'.toQueueWithStorage := by
  obtain ⟨_, hinv, heq⟩ := Option.bind_eq_some_iff.mp h
  obtain ⟨q, hq, hinv⟩ := Option.bind_eq_some_iff.mp hinv
  cases hinv
  cases heq
  exact hq

theorem fits_of_void {m f v p : Nat} (hT : Token.isVoid T = true) (hne : Nonempty T) (hf : f < m) (hfits : c + v + p < m)
    (h : DropsOldest T ε m f c v p n) : DropFits T v n := by
  obtain ⟨t⟩ := hne
  have hstart : ∃ ch : FifoChan T ε, ch.fsize = m ∧ ch.findex = f ∧
      Tidy ch.toQueueWithStorage (fun _ => false) c (List.replicate v t) (List.replicate p t) :=
    exists_tidy hf (by simpa using hfits)
  obtain ⟨ch, hm, hfindex, ht⟩ := hstart
  obtain ⟨ch', hs, hdrop⟩ := h .checked ch _ _ _ hm hfindex (List.length_replicate) (List.length_replicate) ht
  have hfree := ht.carries.free_of_droppedVoid hT (commFinish_dropped_queue hs)
  have hnum := hdrop.numFree_eq
  rw [FifoEntry.numFree, FifoEntry.numFree, hfree] at hnum
  rw [DropFits, if_pos hT]
  exact Nat.add_left_cancel hnum

theorem fits_of_nontrivial {m f v p : Nat} (hT : Token.isVoid T = false) (hne : Nontrivial T) (hf : f < m)
    (hfits : c + v + p < m) (hn : n ≤ p) (h : DropsOldest T ε m f c v p n) : DropFits T v n := by
  obtain ⟨x, y, hxy⟩ := hne.exists_pair_ne
  rw [dropFits_iff hT]
  rcases Nat.eq_zero_or_pos n with hzero | hpos
  · exact .inl hzero
  -- the first tokens are told apart from those behind where the code starts
  obtain ⟨k, hk⟩ : ∃ k, k = (toInt (n - 1 + v) + 1).toNat := ⟨_, rfl⟩
  let visible := (List.range v).map fun i => if i < k then x else y
  have hv : visible.length = v := by simp [visible]
  have hstart : ∃ ch : FifoChan T ε, ch.fsize = m ∧ ch.findex = f ∧
      Tidy ch.toQueueWithStorage (fun _ => false) c visible (List.replicate p x) :=
    exists_tidy hf (by rw [hv, List.length_replicate]; exact hfits)
  obtain ⟨ch, hm, hfindex, ht⟩ := hstart
  obtain ⟨ch', hs, hdrop⟩ := h .checked ch _ _ _ hm hfindex hv List.length_replicate ht
  obtain ⟨hlt, hsize, hr, d, hd, hheld⟩ := ht.carries.erased hT (by rw [List.length_replicate]; exact hn) hpos
    (commFinish_dropped_queue hs) hdrop.numFree_eq
  rw [hv] at hd
  obtain ⟨hk', hfit⟩ := offset_lt hpos hlt hd
  rw [hk'] at hk
  clear hd hk'
  refine .inr ⟨hlt, hfit.resolve_right fun hdv => ?_⟩
  have hread := hdrop.read_eq .checked d (by omega) (d + 1) (Nat.lt_succ_self d)
  have hfirst : visible[d]? = some x := by simp [visible, hk, show d < v by omega, hpos]
  have hnext : visible[d + n]? = some y := by simp [visible, hk, hdv]
  have hslot := hheld d (by simp only [List.length_append, List.length_take, List.length_drop]; omega)
  rw [List.getElem?_append_right (by rw [List.length_take]; omega), List.length_take, List.length_append, hv,
    List.length_replicate, Nat.min_eq_left (by omega), Nat.sub_self, List.getElem?_drop, Nat.add_zero,
    List.getElem?_append_left (by rw [hv]; exact hdv), hnext] at hslot
  rw [FifoOutlet.read, ringRead, Build.debugAssert_of _ (Nat.lt_succ_self d), ringSlot_eq hr (by omega), hfirst] at hread
  exact hxy (Option.some.inj (hread.symm.trans hslot))

/-- A dropped commit removes the oldest tokens of the pipeline where their number and their
positions fit an `int`, and only there if tokens differ. -/
theorem oldest_dropped {m f v p : Nat} (hf : f < m) (hfits : c + v + p < m) (hn : n ≤ p) :
    (DropFits T v n → DropsOldest T ε m f c v p n) ∧
      (Token.isVoid T = true ∧ Nonempty T ∨ Nontrivial T → DropsOldest T ε m f c v p n → DropFits T v n) := by
  refine ⟨fun hfit b ch filled visible pipeline _ _ hv hp h => ?_, fun hT h => ?_⟩
  · subst hv hp
    exact oldestDropped_of_fits h hn hfit
  · cases hvoid : Token.isVoid T with
    | true =>
      have hne : Nonempty T := by
        rcases hT with hT | hT
        · exact hT.2
        · exact hT.to_nonempty
      exact fits_of_void hvoid hne hf hfits h
    | false =>
      rw [hvoid] at hT
      exact fits_of_nontrivial hvoid (hT.resolve_left (by simp)) hf hfits hn h

/-- A token dropped behind a visible one, on a ring that wraps, and a number of tokens that is no `int`. -/
theorem oldest_dropped_wrapped :
    (∃ ch ch' : FifoChan Nat Bool, ch.pipelineCount = 2 ∧ FifoEntry.commFinish .checked ch 1 true = some ch' ∧
      FifoOutlet.read .checked ch' 1 0 = some 7 ∧ Holds ch'.fsize ch'.storage ch'.vindex [9]) ∧
    ¬ DropsOldest Nat Bool (2 ^ 32) 0 0 1 (2 ^ 31) (2 ^ 31) := by
  constructor
  · let ch : FifoChan Nat Bool :=
      { FifoChan.new 3 [] with
        findex := 3, rindex := 3, vindex := 0, windex := 2
        storage := fun i => if i = 3 then some 7 else if i < 2 then some (8 + i) else none }
    have h : Tidy ch.toQueueWithStorage (fun _ => false) 0 [7] [8, 9] := by
      refine ⟨⟨⟨by decide, by decide, by decide, by decide, by decide⟩, ?_, ?_⟩, ?_, ?_⟩
      · exact fun i hi => absurd hi (Nat.not_lt_zero i)
      · change ∀ i < 3, _
        decide
      · have hfree : ch.freeCount = 0 := by decide
        intro i hi
        rw [hfree, Nat.le_zero] at hi
        subst hi
        decide
      · exact fun _ _ => rfl
    have hdrops : DropsOldest Nat Bool 4 3 0 1 2 1 :=
      (oldest_dropped (by decide) (by decide) (by decide)).1 ((dropFits_iff rfl).mpr (by omega))
    obtain ⟨ch', hs, hdrop⟩ := hdrops .checked ch _ [7] [8, 9] rfl rfl rfl rfl h
    exact ⟨ch, ch', by decide, hs, hdrop.read_eq .checked 0 Nat.one_pos 1 Nat.one_pos, hdrop.rest⟩
  · intro h
    have hfit := (oldest_dropped (by decide) (by decide) (Nat.le_refl _)).2 (.inr inferInstance) h
    rw [dropFits_iff rfl] at hfit
    omega

/-- 2^32 dropped tokens of a `void` FIFO all stay. -/
theorem nothing_dropped :
    ¬ DropsOldest Unit Bool (2 ^ 33) 0 0 0 (2 ^ 32) (2 ^ 32) ∧
    ((FifoChan.new (2 ^ 33 - 1) [] : FifoChan Unit Bool).doReset .checked >>= (·.step .checked (.entryStart (2 ^ 32))) >>= fun ch =>
      (FifoEntry.commFinish .checked ch (2 ^ 32) true).map fun ch' => (ch.pipelineCount, ch'.pipelineCount)) =
        some (2 ^ 32, 2 ^ 32) := by
  refine ⟨fun h => ?_, by decide +kernel⟩
  have hfit : toSize (toInt (2 ^ 32)) = 2 ^ 32 := fits_of_void rfl ⟨()⟩ (by decide) (by decide) h
  exact absurd hfit (by decide +kernel)

end

/-! ## Runs of a channel -/

namespace ChanKind

variable {ε : Type} {kind : ChanKind} {b : Build} {n k : Nat} {ch ch' : FifoChan T ε} {filled filled' : Nat → Bool}
  {op : FifoOp T}

def Written (ch : FifoChan T ε) (filled : Nat → Bool) : FifoOp T → Prop
  | .entryStart k => ∀ i < k, filled (add ch.fsize ch.windex i) = true
  | _ => True

def fill (ch : FifoChan T ε) (filled : Nat → Bool) : FifoOp T → Nat → Bool
  | .write _ i _ => Function.update filled (add ch.fsize ch.windex i) true
  | .entryStart k => fun s => filled s && !decide (∃ i < k, s = add ch.fsize ch.windex i)
  | .doReset => fun s => filled s && decide (ch.initialTokens.length ≤ s)
  | _ => filled

/-- Nothing is consumed from a multireader FIFO, and what a FIFO drops fits an `int`. -/
def Destroys [Token T] (kind : ChanKind) (ch : FifoChan T ε) : FifoOp T → Prop
  | .outletStart k => kind = .fifo ∨ k = 0
  | .entryFinish k true => kind = .fifo → DropFits T ch.visibleCount k
  | _ => True

def StorageStep [Token T] [SmocEvent ε] (allowed : FifoChan T ε → FifoOp T → Prop) (kind : ChanKind) (b : Build)
    (s s' : FifoChan T ε × (Nat → Bool)) : Prop :=
  ∃ op, allowed s.1 op ∧ s.1.Guarded op ∧ Written s.1 s.2 op ∧ kind.step b s.1 op = some s'.1 ∧ s'.2 = fill s.1 s.2 op

/-- Tokens lie in the used area and in filled slots only. -/
structure Destroyed (ch : FifoChan T ε) (filled : Nat → Bool) : Prop where
  used : ∀ i < ch.usedCount, (ch.storage (add ch.fsize ch.rindex i)).isSome
  consumed : ∀ i < ch.consumingCount, ch.storage (add ch.fsize ch.findex i) = none
  free : ∀ i ≤ ch.freeCount, filled (add ch.fsize ch.windex i) = false → ch.storage (add ch.fsize ch.windex i) = none

def TidyChan (n : Nat) (ch : FifoChan T ε) (filled : Nat → Bool) : Prop :=
  ch.fsize = n + 1 ∧ ch.initialTokens.length ≤ n ∧ ∃ c visible pipeline,
    Tidy ch.toQueueWithStorage filled c visible pipeline

theorem TidyChan.destroyed (h : TidyChan n ch filled) : Destroyed ch filled := by
  obtain ⟨_, _, c, visible, pipeline, h⟩ := h
  have hfits := h.carries.areas.fits
  refine ⟨fun i hi => ?_, fun i hi => ?_, fun i hi hfill => ?_⟩
  · rw [h.carries.areas.usedCount_eq] at hi
    rw [h.carries.slot_rindex, h.isSome_eq (by omega), decide_eq_true (by omega), Bool.true_or]
  · rw [FifoChan.consumingCount, h.carries.areas.inConsume_eq] at hi
    exact h.carries.cleared i hi
  · have := h.free i hi
    rw [hfill] at this
    exact Option.not_isSome_iff_eq_none.mp (by simp [this])

variable [SmocEvent ε]

theorem TidyChan.new {l : List T} {rs : List EventRequest} (hl : l.length ≤ n)
    (hreq : rs.foldlM (FifoChan.request b) (FifoChan.new n l) = some ch) : TidyChan n ch fun _ => false := by
  obtain ⟨hq, hi, _⟩ := requests_queue hreq
  have hareas : Areas ch.toQueueFRVWPtr 0 0 0 := by rw [hq]; exact areas_new n l
  have hst : ∀ s, ch.storage s = none := by
    intro s
    rw [hq]
    rfl
  refine ⟨by rw [hq]; rfl, by rw [hi]; exact hl, 0, [], [], ⟨hareas, fun _ _ => hst _, holds_nil⟩, fun i _ => ?_,
    fun _ _ => rfl⟩
  rw [hst]
  rfl

variable [Token T]

theorem TidyChan.plain (op : FifoOp T) (h : TidyChan n ch filled) (hf : ch.Fits op) (hg : ch.Guarded op)
    (hw : Written ch filled op) (hs : ch.step b op = some ch') : TidyChan n ch' (fill ch filled op) := by
  obtain ⟨hsize, hinit, c, visible, pipeline, h⟩ := h
  cases op with
  | write limit i t =>
    obtain ⟨st, hst, heq⟩ := Option.bind_eq_some_iff.mp hs
    cases heq
    have hi : i < ch.freeCount := hg.2
    have hi' := hi
    rw [h.freeCount_eq] at hi'
    rw [ringWrite, b.debugAssert_of hg.1, ringSlot_eq h.carries.areas.windex_lt (by omega)] at hst
    cases hst
    exact ⟨hsize, hinit, c, visible, pipeline, h.put hi t⟩
  | entryStart k =>
    obtain ⟨q, hq, heq⟩ := Option.bind_eq_some_iff.mp hs
    cases heq
    obtain ⟨⟨ts, ht⟩, hq'⟩ := h.wpp hg hw hq
    exact ⟨hq'.trans hsize, hinit, c, visible, pipeline ++ ts, ht⟩
  | entryFinish k dropped =>
    have hk : k ≤ pipeline.length := by
      rw [← h.carries.areas.pipeline_eq]
      exact hg
    cases dropped with
    | false =>
      obtain ⟨q, hq, heq⟩ := Option.bind_eq_some_iff.mp hs
      cases heq
      obtain ⟨ht, hq'⟩ := h.vpp hk hq
      exact ⟨hq'.trans hsize, hinit, c, _, _, ht⟩
    | true =>
      obtain ⟨_, hinv, heq⟩ := Option.bind_eq_some_iff.mp hs
      obtain ⟨q, hq, hinv⟩ := Option.bind_eq_some_iff.mp hinv
      cases hinv
      cases heq
      have hfit : DropFits T visible.length k := by
        rw [← h.carries.areas.visibleCount_eq]
        exact hf
      obtain ⟨ht, hq'⟩ := h.dropRInvisible hk hfit hq
      exact ⟨hq'.trans hsize, hinit, c, visible, _, ht⟩
  | outletStart k =>
    have hk : k ≤ visible.length := by
      rw [← h.carries.areas.visibleCount_eq]
      exact hg
    obtain ⟨q, hq, heq⟩ := Option.bind_eq_some_iff.mp hs
    cases heq
    obtain ⟨ht, hq'⟩ := h.rpp hk hq
    exact ⟨hq'.trans hsize, hinit, _, _, pipeline, ht⟩
  | outletFinish k =>
    have hk : k ≤ c := by
      rw [← h.carries.areas.inConsume_eq]
      exact hg
    rw [FifoChan.step, FifoOutlet.commFinish_eq] at hs
    obtain ⟨q, hq, heq⟩ := Option.bind_eq_some_iff.mp hs
    cases heq
    obtain ⟨ht, hq'⟩ := h.fpp hk hq
    exact ⟨hq'.trans hsize, hinit, _, visible, pipeline, ht⟩
  | doReset =>
    obtain ⟨q, hq, heq⟩ := Option.bind_eq_some_iff.mp hs
    cases heq
    obtain ⟨ht, hq'⟩ := h.doReset (by rw [hsize]; omega) hq
    exact ⟨hq'.trans hsize, hinit, 0, _, [], ht⟩

omit [SmocEvent ε] in
theorem Destroys.fits (h : Destroys .fifo ch op) : ch.Fits op := by
  cases op with
  | entryFinish k dropped =>
    cases dropped with
    | false => trivial
    | true => exact h rfl
  | _ => trivial

theorem TidyChan.step (h : TidyChan n ch filled) (ha : Destroys kind ch op) (hg : ch.Guarded op) (hw : Written ch filled op)
    (hs : kind.step b ch op = some ch') : TidyChan n ch' (fill ch filled op) := by
  cases kind with
  | fifo => exact h.plain _ (Destroys.fits ha) hg hw hs
  | multireader =>
    cases op with
    | write | entryStart | outletFinish | doReset => exact h.plain _ trivial hg hw hs
    | entryFinish k dropped =>
      obtain ⟨_, _, hs⟩ := Option.bind_eq_some_iff.mp hs
      exact h.plain (.entryFinish k false) trivial hg trivial hs
    | outletStart k =>
      obtain ⟨hsize, hinit, c, visible, pipeline, h⟩ := h
      obtain rfl : k = 0 := ha.resolve_left (by simp)
      obtain ⟨base, hbase, heq⟩ := Option.bind_eq_some_iff.mp hs
      cases heq
      have ht := h.rpp_zero hbase
      rw [h.carries.areas.rpp_eq (Nat.zero_le _), Option.some.injEq] at hbase
      subst hbase
      exact ⟨hsize, hinit, c, visible, pipeline, ht⟩

theorem TidyChan.run {s s' : FifoChan T ε × (Nat → Bool)} (h : TidyChan n s.1 s.2)
    (hr : Relation.ReflTransGen (StorageStep (Destroys kind) kind b) s s') : TidyChan n s'.1 s'.2 := by
  induction hr with
  | refl => exact h
  | tail _ hstep ih =>
    obtain ⟨op, ha, hg, hw, hs, hf⟩ := hstep
    rw [hf]
    exact ih.step ha hg hw hs

/-- As long as nothing is consumed from a multireader FIFO, a channel holds a token
object in each used slot and none elsewhere but where its writer placed one, and
consuming destroys the consumed ones. -/
theorem consumed_destroyed {l : List T} {rs : List EventRequest} {ch₀ ch₁ : FifoChan T ε} (hl : l.length ≤ n)
    (hreq : rs.foldlM (kind.request b) (FifoChan.new n l) = some ch₀) (hreset : ch₀.doReset b = some ch₁)
    (ch : FifoChan T ε) (filled : Nat → Bool)
    (hrun : Relation.ReflTransGen (StorageStep (Destroys kind) kind b) (ch₁, fun _ => false) (ch, filled)) :
    Destroyed ch filled ∧ ∀ k ch', k ≤ FifoOutlet.numAvailable ch → Destroys kind ch (.outletStart k : FifoOp T) →
      kind.step b ch (.outletStart k) = some ch' → ∀ i < k, (ch.storage (add ch.fsize ch.rindex i)).isSome ∧
        ch'.storage (add ch.fsize ch.rindex i) = none := by
  have h₀ := TidyChan.new hl (requests_plain hreq)
  have h₁ : TidyChan n ch₁ fun _ => false := h₀.plain .doReset trivial trivial trivial hreset
  have h : TidyChan n ch filled := h₁.run hrun
  refine ⟨h.destroyed, fun k ch' hk ha hs i hi => ⟨h.destroyed.used i ?_, ?_⟩⟩
  · obtain ⟨_, _, c, visible, pipeline, h⟩ := h
    rw [FifoOutlet.numAvailable, h.carries.areas.visibleCount_eq] at hk
    rw [h.carries.areas.usedCount_eq]
    omega
  · obtain rfl : kind = .fifo := ha.resolve_right (by omega)
    obtain ⟨_, _, c, visible, pipeline, h⟩ := h
    rw [FifoOutlet.numAvailable, h.carries.areas.visibleCount_eq] at hk
    obtain ⟨q, hq, heq⟩ := Option.bind_eq_some_iff.mp hs
    cases heq
    have hbase := QueueWithStorage.rpp_base hq
    rw [h.carries.areas.rpp_eq hk, Option.some.injEq] at hbase
    have hclear := (h.rpp hk hq).1.carries.cleared (c + i) (by omega)
    rw [← hbase] at hclear
    rw [h.carries.slot_rindex]
    exact hclear

theorem consumed_destroyed_first :
    ∃ ch ch' : FifoChan Nat Bool, ChanKind.step .fifo .checked ch (.outletStart 1) = some ch' ∧
      ch.storage 0 = some 7 ∧ ch'.storage 0 = none := by
  obtain ⟨ch, ch', hreset, hs, hval⟩ : ∃ ch ch' : FifoChan Nat Bool, doReset .checked (FifoChan.new 1 [7]) = some ch ∧
      ChanKind.step .fifo .checked ch (.outletStart 1) = some ch' ∧ ch.storage 0 = some 7 ∧
      FifoOutlet.numAvailable ch = 1 ∧ add ch.fsize ch.rindex 0 = 0 := ⟨_, _, rfl, rfl, rfl, rfl, rfl⟩
  obtain ⟨_, hdestroy⟩ := consumed_destroyed (n := 1) (l := [7]) (by decide)
    (show [].foldlM (ChanKind.request .fifo .checked) (FifoChan.new 1 [7]) = some _ from rfl) hreset ch _ .refl
  have := (hdestroy 1 ch' (by rw [hval.2.1]) (.inl rfl) hs 0 Nat.one_pos).2
  rw [hval.2.2] at this
  exact ⟨ch, ch', hs, hval.1, this⟩

/-- The initial token of a multireader FIFO outlives its consumption. -/
theorem multireader_keeps_consumed :
    ∃ (ch₁ ch : FifoChan Nat Bool) (filled : Nat → Bool), doReset .checked (FifoChan.new 1 [7]) = some ch₁ ∧
      Relation.ReflTransGen (StorageStep (fun _ _ => True) .multireader .checked) (ch₁, fun _ => false) (ch, filled) ∧
      ¬ Destroyed ch filled := by
  have hrun : (doReset .checked (FifoChan.new 1 [7] : FifoChan Nat Bool) >>= fun ch₁ =>
      (ChanKind.step .multireader .checked ch₁ (.outletStart 1)).map fun ch =>
        (FifoOutlet.numAvailable ch₁, ch.consumingCount, ch.storage (add ch.fsize ch.findex 0))) =
      some (1, 1, some 7) := by decide +kernel
  obtain ⟨ch₁, hreset, hrun⟩ := Option.bind_eq_some_iff.mp hrun
  obtain ⟨ch, hs, hrun⟩ := Option.map_eq_some_iff.mp hrun
  simp only [Prod.mk.injEq] at hrun
  obtain ⟨havail, hcount, hval⟩ := hrun
  have hg : ch₁.Guarded (.outletStart 1) := Nat.le_of_eq havail.symm
  refine ⟨ch₁, ch, _, hreset, .single ⟨.outletStart 1, trivial, hg, trivial, hs, rfl⟩, fun h => ?_⟩
  have := h.consumed 0 (by rw [hcount]; exact Nat.one_pos)
  rw [hval] at this
  cases this

end ChanKind

end SysteMoC
