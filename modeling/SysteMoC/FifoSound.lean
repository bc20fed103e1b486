import Mathlib.Logic.Relation
import SysteMoC.AbsQueue
import SysteMoC.TokenDrop

/-!
# FIFO channels: counts, events and the queue they implement

The index invariant of a guarded run and what the threshold events say in it,
then the refinement of a queue of four areas.
-/

namespace SysteMoC

open Cyclic

namespace FifoChan

variable {T ε : Type} [SmocEvent ε] {b : Build} {n : Nat} {ch ch' : FifoChan T ε}

/-! ## The index invariant -/

structure Counted (n : Nat) (ch : FifoChan T ε) (c v p : Nat) : Prop where
  areas : Areas ch.toQueueFRVWPtr c v p
  fsize_eq : ch.fsize = n + 1
  initial_le : ch.initialTokens.length ≤ n
  data : ch.emmData.Tracks v
  space : ch.emmSpace.Tracks (n - (c + v + p))

namespace Counted

variable {c v p : Nat}

theorem pipelineCount_eq (h : Counted n ch c v p) : ch.pipelineCount = p := h.areas.pipeline_eq

theorem consumingCount_eq (h : Counted n ch c v p) : ch.consumingCount = c := h.areas.inConsume_eq

theorem freeCount_eq (h : Counted n ch c v p) : ch.freeCount = n - (c + v + p) := by
  rw [h.areas.freeCount_eq, h.fsize_eq, Nat.add_sub_cancel]

end Counted

structure SameConfig (ch ch' : FifoChan T ε) : Prop where
  initialTokens : ch'.initialTokens = ch.initialTokens
  data : ch'.emmData.thresholds = ch.emmData.thresholds
  space : ch'.emmSpace.thresholds = ch.emmSpace.thresholds

def areasAfter (initial : Nat) (c v p : Nat) : FifoOp T → Nat × Nat × Nat
  | .write _ _ _ => (c, v, p)
  | .entryStart k => (c, v, p + k)
  | .entryFinish k dropped => if dropped then (c, v, p - k) else (c, v + k, p - k)
  | .outletStart k => (c + k, v - k, p)
  | .outletFinish k => (c - k, v, p)
  | .doReset => (0, initial, 0)

variable [LawfulEvent ε]

theorem Counted.ofReset {c v p : Nat} (h : Areas ch.toQueueFRVWPtr c v p) (hsize : ch.fsize = n + 1)
    (hinit : ch.initialTokens.length ≤ n) (hs : ch.doReset b = some ch') :
    Counted n ch' 0 ch.initialTokens.length 0 ∧ SameConfig ch ch' := by
  obtain ⟨q, hq, heq⟩ := Option.bind_eq_some_iff.mp hs
  cases heq
  obtain ⟨q', hq₁, hcar, hq'⟩ := QueueWithStorage.doReset_eq (b := b) (l := ch.initialTokens) h.rindex_lt (by omega)
  rw [hq, Option.some.injEq] at hq₁
  subst hq₁
  have ha := hcar.areas
  rw [hsize] at hq'
  refine ⟨⟨ha, hq', hinit, ?_, ?_⟩, ⟨rfl, EventMapManager.thresholds_increasedCount.trans
    EventMapManager.thresholds_reset, EventMapManager.thresholds_increasedCount.trans
    EventMapManager.thresholds_reset⟩⟩
  · show (ch.emmData.reset.increasedCount q.visibleCount).Tracks _
    rw [ha.visibleCount_eq]
    exact (EventMapManager.reset_inactive _).increasedCount
  · show (ch.emmSpace.reset.increasedCount q.freeCount).Tracks _
    rw [ha.freeCount_eq, hq', Nat.add_sub_cancel]
    exact (EventMapManager.reset_inactive _).increasedCount

variable [Token T]

theorem Counted.step {c v p : Nat} {op : FifoOp T} (h : Counted n ch c v p) (hg : ch.Guarded op) (hf : ch.Fits op)
    (hs : ch.step b op = some ch') :
    ∃ c' v' p', (c', v', p') = areasAfter ch.initialTokens.length c v p op ∧ Counted n ch' c' v' p' ∧
      SameConfig ch ch' := by
  have hsize := h.fsize_eq
  have hfits := h.areas.fits
  cases op with
  | write limit i t =>
    simp only [FifoChan.step, FifoEntry.write, Option.bind_eq_bind, Option.bind_eq_some_iff] at hs
    obtain ⟨_, _, heq⟩ := hs
    cases heq
    exact ⟨c, v, p, rfl, ⟨h.areas, h.fsize_eq, h.initial_le, h.data, h.space⟩, ⟨rfl, rfl, rfl⟩⟩
  | entryStart k =>
    simp only [FifoChan.step, FifoEntry.commStart, Option.bind_eq_bind, Option.bind_eq_some_iff] at hs
    obtain ⟨q, hq, heq⟩ := hs
    cases heq
    have hbase := QueueWithStorage.wpp_base hq
    rw [h.areas.wpp_eq hg] at hbase
    have ha : Areas q.toQueueFRVWPtr c v (p + k) := by
      rw [← Option.some.inj hbase]
      exact h.areas.wpp hg
    have hq' : q.fsize = n + 1 := by rw [← Option.some.inj hbase]; exact hsize
    refine ⟨c, v, p + k, rfl, ⟨ha, hq', h.initial_le, h.data, ?_⟩, ⟨rfl, rfl, EventMapManager.thresholds_decreasedCount⟩⟩
    show (ch.emmSpace.decreasedCount q.freeCount).Tracks _
    rw [ha.freeCount_eq, hq', Nat.add_sub_cancel]
    exact h.space.decreasedCount (by omega)
  | entryFinish k dropped =>
    have hk : k ≤ p := by rw [← h.pipelineCount_eq]; exact hg
    cases dropped with
    | false =>
      simp only [FifoChan.step, FifoEntry.commFinish, latencyExpired, Bool.not_false, if_true, Option.bind_eq_bind,
        Option.bind_eq_some_iff] at hs
      obtain ⟨q, hq, heq⟩ := hs
      cases heq
      have hbase := QueueWithStorage.vpp_base hq
      rw [h.areas.vpp_eq hk] at hbase
      have ha : Areas q.toQueueFRVWPtr c (v + k) (p - k) := by
        rw [← Option.some.inj hbase]
        exact h.areas.vpp hk
      have hq' : q.fsize = n + 1 := by rw [← Option.some.inj hbase]; exact hsize
      refine ⟨c, v + k, p - k, rfl, ⟨ha, hq', h.initial_le, ?_, ?_⟩, ⟨rfl, EventMapManager.thresholds_increasedCount, rfl⟩⟩
      · show (ch.emmData.increasedCount q.visibleCount).Tracks _
        rw [ha.visibleCount_eq]
        exact h.data.increasedCount (by omega)
      · rw [show c + (v + k) + (p - k) = c + v + p by omega]
        exact h.space
    | true =>
      simp only [FifoChan.step, FifoEntry.commFinish, latencyExpired_dropped, invalidateToken, Bool.not_true,
        Bool.false_eq_true, if_false, Option.bind_eq_bind, Option.bind_eq_some_iff] at hs
      obtain ⟨_, ⟨q, hq, hw⟩, heq⟩ := hs
      cases hw
      cases heq
      have hbase := QueueWithStorage.dropRInvisible_base hf hq
      obtain ⟨base, hbase', ha, hq', _⟩ := h.areas.dropRInvisible_eq (b := b) hk
      rw [hbase, Option.some.injEq] at hbase'
      subst hbase'
      rw [hsize] at hq'
      refine ⟨c, v, p - k, rfl, ⟨ha, hq', h.initial_le, h.data, ?_⟩, ⟨rfl, rfl, EventMapManager.thresholds_increasedCount⟩⟩
      show (ch.emmSpace.increasedCount q.freeCount).Tracks _
      rw [ha.freeCount_eq, hq', Nat.add_sub_cancel]
      exact h.space.increasedCount (by omega)
  | outletStart k =>
    have hk : k ≤ v := by rw [← h.areas.visibleCount_eq]; exact hg
    simp only [FifoChan.step, FifoOutlet.commStart, Option.bind_eq_bind, Option.bind_eq_some_iff] at hs
    obtain ⟨q, hq, heq⟩ := hs
    cases heq
    have hbase := QueueWithStorage.rpp_base hq
    rw [h.areas.rpp_eq hk] at hbase
    have ha : Areas q.toQueueFRVWPtr (c + k) (v - k) p := by
      rw [← Option.some.inj hbase]
      exact h.areas.rpp hk
    have hq' : q.fsize = n + 1 := by rw [← Option.some.inj hbase]; exact hsize
    refine ⟨c + k, v - k, p, rfl, ⟨ha, hq', h.initial_le, ?_, ?_⟩, ⟨rfl, EventMapManager.thresholds_decreasedCount, rfl⟩⟩
    · show (ch.emmData.decreasedCount q.visibleCount).Tracks _
      rw [ha.visibleCount_eq]
      exact h.data.decreasedCount (by omega)
    · rw [show c + k + (v - k) + p = c + v + p by omega]
      exact h.space
  | outletFinish k =>
    have hk : k ≤ c := by rw [← h.consumingCount_eq]; exact hg
    rw [FifoChan.step, FifoOutlet.commFinish_eq] at hs
    simp only [readConsumeEventExpired, Option.bind_eq_bind, Option.bind_eq_some_iff] at hs
    obtain ⟨q, hq, heq⟩ := hs
    cases heq
    have hbase := QueueWithStorage.fpp_base hq
    rw [h.areas.fpp_eq hk] at hbase
    have ha : Areas q.toQueueFRVWPtr (c - k) v p := by
      rw [← Option.some.inj hbase]
      exact h.areas.fpp hk
    have hq' : q.fsize = n + 1 := by rw [← Option.some.inj hbase]; exact hsize
    refine ⟨c - k, v, p, rfl, ⟨ha, hq', h.initial_le, h.data, ?_⟩, ⟨rfl, rfl, EventMapManager.thresholds_increasedCount⟩⟩
    show (ch.emmSpace.increasedCount q.freeCount).Tracks _
    rw [ha.freeCount_eq, hq', Nat.add_sub_cancel]
    exact h.space.increasedCount (by omega)
  | doReset =>
    obtain ⟨hc, hsame⟩ := Counted.ofReset h.areas h.fsize_eq h.initial_le hs
    exact ⟨0, ch.initialTokens.length, 0, rfl, hc, hsame⟩

/-! ## Refinement of the queue -/

/-- The channel carries the lists of the queue, and its free slots what is staged. -/
structure Simulates (n : Nat) (ch : FifoChan T ε) (a : AbsQueue T) : Prop where
  carries : Carries ch.toQueueWithStorage a.consumed.length a.visible a.pipeline
  fsize_eq : ch.fsize = n + 1
  initial_le : ch.initialTokens.length ≤ n
  staged : ∀ i t, a.staged i = some t → i < ch.freeCount ∧ ch.storage (add ch.fsize ch.windex i) = some t

namespace Simulates

variable {a : AbsQueue T} {k : Nat}

omit [SmocEvent ε] [LawfulEvent ε] [Token T]

theorem freeCount_eq (h : Simulates n ch a) :
    ch.freeCount = n - (a.consumed.length + a.visible.length + a.pipeline.length) := by
  rw [h.carries.areas.freeCount_eq, h.fsize_eq, Nat.add_sub_cancel]

theorem consumingCount_eq (h : Simulates n ch a) : ch.consumingCount = a.consumed.length :=
  h.carries.areas.inConsume_eq

theorem pipelineCount_eq (h : Simulates n ch a) : ch.pipelineCount = a.pipeline.length :=
  h.carries.areas.pipeline_eq

theorem visibleCount_eq (h : Simulates n ch a) : ch.visibleCount = a.visible.length :=
  h.carries.areas.visibleCount_eq

theorem moved {q : QueueWithStorage T} {a' : AbsQueue T} (h : Simulates n ch a)
    (hcar : Carries q a'.consumed.length a'.visible a'.pipeline) (hq : q.fsize = ch.fsize)
    (hf : Fresh ch.toQueueWithStorage q k) (hfree : ch.freeCount ≤ q.freeCount + k)
    (hs : ∀ i, a'.staged i = a.staged (i + k)) (hch : ch'.toQueueWithStorage = q)
    (hi : ch'.initialTokens = ch.initialTokens) : Simulates n ch' a' := by
  subst hch
  refine ⟨hcar, hq.trans h.fsize_eq, hi ▸ h.initial_le, fun i t ht => ?_⟩
  rw [hs] at ht
  obtain ⟨hlt, hval⟩ := h.staged _ _ ht
  refine ⟨by omega, ?_⟩
  rw [hf i (by omega), if_pos (Nat.le_of_lt hlt)]
  exact hval

theorem ringWrite_eq (h : Simulates n ch a) {limit i : Nat} {t : T} (hl : i < limit) (hi : i < ch.freeCount) :
    ringWrite b limit ch.storage ch.fsize ch.windex i t =
      some (ch.storage.put (add ch.fsize ch.windex i) t) := by
  have hf := h.carries.areas.freeCount_eq
  rw [ringWrite, b.debugAssert_of hl, ringSlot_eq h.carries.areas.windex_lt (by omega)]
  rfl

end Simulates

def queueStep (b : Build) (q : QueueWithStorage T) (initialTokens : List T) :
    FifoOp T → Option (QueueWithStorage T)
  | .write limit i t =>
    (ringWrite b limit q.storage q.fsize q.windex i t).map fun st => { q with storage := st }
  | .entryStart k => q.wpp b k
  | .entryFinish k dropped => if dropped then q.dropRInvisible b (⟨toInt k⟩ : InvalidateTokenGenerator) else q.vpp b k
  | .outletStart k => q.rpp b k
  | .outletFinish k => q.fpp b k
  | .doReset => q.doReset b initialTokens

omit [LawfulEvent ε] in
theorem step_of_queueStep {o : FifoOp T} {q : QueueWithStorage T}
    (h : queueStep b ch.toQueueWithStorage ch.initialTokens o = some q) :
    ∃ ch', ch.step b o = some ch' ∧ ch'.toQueueWithStorage = q ∧ ch'.initialTokens = ch.initialTokens := by
  cases o with
  | write limit i t =>
    obtain ⟨st, hst, rfl⟩ := Option.map_eq_some_iff.mp h
    refine ⟨{ ch with storage := st }, ?_, rfl, rfl⟩
    simp only [FifoChan.step, FifoEntry.write, hst, Option.bind_eq_bind, Option.bind_some]
    rfl
  | entryStart k =>
    simp only [queueStep] at h
    refine ⟨{ ch with
      toQueueWithStorage := q
      tokenId := ch.tokenId + UInt64.ofNat k
      emmSpace := ch.emmSpace.decreasedCount q.freeCount }, ?_, rfl, rfl⟩
    simp only [FifoChan.step, FifoEntry.commStart, h, Option.bind_eq_bind, Option.bind_some]
    rfl
  | entryFinish k dropped =>
    cases dropped with
    | false =>
      simp only [queueStep, Bool.false_eq_true, if_false] at h
      refine ⟨{ ch with toQueueWithStorage := q, emmData := ch.emmData.increasedCount q.visibleCount }, ?_, rfl, rfl⟩
      simp only [FifoChan.step, FifoEntry.commFinish, latencyExpired, Bool.not_false, if_true, h,
        Option.bind_eq_bind, Option.bind_some]
      rfl
    | true =>
      simp only [queueStep, if_true] at h
      refine ⟨{ ch with toQueueWithStorage := q, emmSpace := ch.emmSpace.increasedCount q.freeCount }, ?_, rfl, rfl⟩
      simp only [FifoChan.step, FifoEntry.commFinish, latencyExpired_dropped, invalidateToken, Bool.not_true,
        Bool.false_eq_true, if_false, h, Option.bind_eq_bind, Option.bind_some]
      rfl
  | outletStart k =>
    simp only [queueStep] at h
    refine ⟨{ ch with toQueueWithStorage := q, emmData := ch.emmData.decreasedCount q.visibleCount }, ?_, rfl, rfl⟩
    simp only [FifoChan.step, FifoOutlet.commStart, h, Option.bind_eq_bind, Option.bind_some]
    rfl
  | outletFinish k =>
    simp only [queueStep] at h
    refine ⟨{ ch with toQueueWithStorage := q, emmSpace := ch.emmSpace.increasedCount q.freeCount }, ?_, rfl, rfl⟩
    rw [FifoChan.step, FifoOutlet.commFinish_eq]
    simp only [readConsumeEventExpired, h, Option.bind_eq_bind, Option.bind_some]
    rfl
  | doReset =>
    simp only [queueStep] at h
    refine ⟨{ ch with
      toQueueWithStorage := q
      emmSpace := ch.emmSpace.reset.increasedCount q.freeCount
      emmData := ch.emmData.reset.increasedCount q.visibleCount }, ?_, rfl, rfl⟩
    simp only [FifoChan.step, doReset, h, Option.bind_eq_bind, Option.bind_some]
    rfl

omit [LawfulEvent ε] in
theorem Simulates.step {a : AbsQueue T} {op : FifoOp T} (h : Simulates n ch a) (hg : ch.Guarded op) (hf : ch.Fits op)
    (hp : a.Placed op) :
    ∃ ch', ch.step b op = some ch' ∧ Simulates n ch' (a.step ch.initialTokens op) ∧
      ch'.initialTokens = ch.initialTokens := by
  have hfree := h.freeCount_eq
  have hfits := h.carries.areas.fits
  have hsize := h.fsize_eq
  have hinit := h.initial_le
  cases op with
  | write limit i t =>
    have hi : i < ch.freeCount := hg.2
    obtain ⟨ch', hs, hch, hinit'⟩ := step_of_queueStep (b := b) (o := FifoOp.write limit i t)
      (Option.map_eq_some_iff.mpr ⟨_, h.ringWrite_eq hg.1 hi, rfl⟩)
    refine ⟨ch', hs, ?_, hinit'⟩
    have hstage : ∀ j u, Function.update a.staged i (some t) j = some u → j < ch.freeCount ∧
        Function.update ch.storage (add ch.fsize ch.windex i) (some t) (add ch.fsize ch.windex j) = some u := by
      intro j u hj
      by_cases hji : j = i
      · subst hji
        rw [Function.update_self] at hj ⊢
        exact ⟨hi, hj⟩
      · rw [Function.update_of_ne hji] at hj
        obtain ⟨hlt, hval⟩ := h.staged j u hj
        rw [update_other h.carries.areas.windex_lt (by omega) (by omega) hji]
        exact ⟨hlt, hval⟩
    exact ⟨hch ▸ h.carries.put hi t, hch ▸ hsize, hinit' ▸ hinit, by rw [hch]; exact hstage⟩
  | entryStart k =>
    have hlen : (a.stagedPrefix k).length = k := Pick.length_tabulate hp
    have hheld : Holds ch.fsize ch.storage ch.windex (a.stagedPrefix k) := by
      intro i hi
      rw [hlen] at hi
      obtain ⟨t, ht⟩ := Option.isSome_iff_exists.mp (hp i hi)
      rw [AbsQueue.stagedPrefix, Pick.getElem?_tabulate hp hi, ht]
      exact (h.staged i t ht).2
    have hk : k ≤ ch.freeCount := hg
    obtain ⟨q, hq, hcar, hq', hfresh⟩ := h.carries.wpp (b := b) (by rw [hlen]; exact hk) hheld
    rw [hlen] at hq hfresh
    have hqfree : q.freeCount = n - (a.consumed.length + a.visible.length + (a.pipeline.length + k)) := by
      rw [hcar.areas.freeCount_eq, hq', hsize, Nat.add_sub_cancel, List.length_append, hlen]
    obtain ⟨ch', hs, hch, hinit'⟩ := step_of_queueStep (o := .entryStart k) hq
    exact ⟨ch', hs, h.moved hcar hq' hfresh (by omega) (fun _ => rfl) hch hinit', hinit'⟩
  | entryFinish k dropped =>
    have hk : k ≤ a.pipeline.length := by rw [← h.pipelineCount_eq]; exact hg
    cases dropped with
    | false =>
      obtain ⟨q, hq, hcar, hq', hfresh⟩ := h.carries.vpp (b := b) hk
      have hqfree : q.freeCount = ch.freeCount := by
        rw [hcar.areas.freeCount_eq, hq', hsize, hfree, List.length_append, List.length_drop, List.length_take]
        omega
      obtain ⟨ch', hs, hch, hinit'⟩ := step_of_queueStep (o := .entryFinish k false) hq
      exact ⟨ch', hs, h.moved hcar hq' hfresh (by omega) (fun _ => rfl) hch hinit', hinit'⟩
    | true =>
      have hfit : DropFits T a.visible.length k := by
        rw [← h.visibleCount_eq]
        exact hf
      obtain ⟨q, hq, hcar, hq', hfresh⟩ := h.carries.dropRInvisible (b := b) hk hfit
      have hqfree : q.freeCount = ch.freeCount + k := by
        rw [hcar.areas.freeCount_eq, hq', hsize, hfree, List.length_drop]
        omega
      have hstep : queueStep b ch.toQueueWithStorage ch.initialTokens (.entryFinish k true) = some q := by
        simpa [queueStep] using hq
      obtain ⟨ch', hs, hch, hinit'⟩ := step_of_queueStep hstep
      exact ⟨ch', hs, h.moved hcar hq' hfresh (by omega) (fun _ => rfl) hch hinit', hinit'⟩
  | outletStart k =>
    have hk : k ≤ a.visible.length := by rw [← h.visibleCount_eq]; exact hg
    obtain ⟨q, hq, hcar, hq', hfresh⟩ := h.carries.rpp (b := b) hk
    have hqfree : q.freeCount = ch.freeCount := by
      rw [hcar.areas.freeCount_eq, hq', hsize, hfree, List.length_drop]
      omega
    obtain ⟨ch', hs, hch, hinit'⟩ := step_of_queueStep (o := .outletStart k) hq
    refine ⟨ch', hs, h.moved ?_ hq' hfresh (by omega) (fun _ => rfl) hch hinit', hinit'⟩
    simp only [AbsQueue.step, List.length_append, List.length_take_of_le hk]
    exact hcar
  | outletFinish k =>
    have hk : k ≤ a.consumed.length := by rw [← h.consumingCount_eq]; exact hg
    obtain ⟨q, hq, hcar, hq', hfresh⟩ := h.carries.fpp (b := b) hk
    have hqfree : ch.freeCount ≤ q.freeCount := by
      rw [hcar.areas.freeCount_eq, hq', hsize, hfree]
      omega
    obtain ⟨ch', hs, hch, hinit'⟩ := step_of_queueStep (o := .outletFinish k) hq
    refine ⟨ch', hs, h.moved ?_ hq' hfresh (by omega) (fun _ => rfl) hch hinit', hinit'⟩
    simp only [AbsQueue.step, List.length_drop]
    exact hcar
  | doReset =>
    obtain ⟨q, hq, hcar, hq'⟩ := QueueWithStorage.doReset_eq (b := b) (l := ch.initialTokens)
      h.carries.areas.rindex_lt (by omega)
    obtain ⟨ch', hs, hch, hinit'⟩ := step_of_queueStep (o := .doReset) hq
    subst hch
    refine ⟨ch', hs, ⟨hcar, hq'.trans hsize, hinit' ▸ hinit, ?_⟩, hinit'⟩
    intro i t ht
    cases ht

/-! ## Runs -/

theorem Counted.run {ch₁ ch₂ : FifoChan T ε} (h : ∃ c v p, Counted n ch₁ c v p)
    (hr : Relation.ReflTransGen (GuardedStep b) ch₁ ch₂) :
    (∃ c v p, Counted n ch₂ c v p) ∧ SameConfig ch₁ ch₂ := by
  induction hr with
  | refl => exact ⟨h, rfl, rfl, rfl⟩
  | tail _ hstep ih =>
    obtain ⟨⟨c, v, p, hc⟩, hsame⟩ := ih
    obtain ⟨op, hg, hf, hs⟩ := hstep
    obtain ⟨c', v', p', _, hc', hsame'⟩ := hc.step hg hf hs
    exact ⟨⟨c', v', p', hc'⟩, hsame'.initialTokens.trans hsame.initialTokens, hsame'.data.trans hsame.data,
      hsame'.space.trans hsame.space⟩

omit [LawfulEvent ε] [Token T] in
theorem request_queue {r : EventRequest} (h : ch.request b r = some ch') :
    ch'.toQueueWithStorage = ch.toQueueWithStorage ∧ ch'.initialTokens = ch.initialTokens ∧
      (∀ k, k ∈ ch'.emmData.thresholds ↔ .data k = r ∨ k ∈ ch.emmData.thresholds) ∧
      (∀ k, k ∈ ch'.emmSpace.thresholds ↔ .space k = r ∨ k ∈ ch.emmSpace.thresholds) := by
  cases r with
  | data n =>
    obtain ⟨em, hem, heq⟩ := Option.bind_eq_some_iff.mp h
    cases heq
    refine ⟨rfl, rfl, fun k => ?_, fun k => ?_⟩
    · rw [EventRequest.data.injEq]
      exact EventMapManager.mem_thresholds_getEvent hem
    · simp
  | space n =>
    obtain ⟨em, hem, heq⟩ := Option.bind_eq_some_iff.mp h
    cases heq
    refine ⟨rfl, rfl, fun k => ?_, fun k => ?_⟩
    · simp
    · rw [EventRequest.space.injEq]
      exact EventMapManager.mem_thresholds_getEvent hem

omit [LawfulEvent ε] [Token T] in
theorem requests_queue {rs : List EventRequest} : ∀ {ch : FifoChan T ε}, rs.foldlM (request b) ch = some ch' →
    ch'.toQueueWithStorage = ch.toQueueWithStorage ∧ ch'.initialTokens = ch.initialTokens ∧
      (∀ k, .data k ∈ rs → k ∈ ch'.emmData.thresholds) ∧ (∀ k, k ∈ ch.emmData.thresholds → k ∈ ch'.emmData.thresholds) ∧
      (∀ k, .space k ∈ rs → k ∈ ch'.emmSpace.thresholds) ∧
      (∀ k, k ∈ ch.emmSpace.thresholds → k ∈ ch'.emmSpace.thresholds) := by
  induction rs with
  | nil =>
    intro ch h
    cases h
    exact ⟨rfl, rfl, fun _ hk => (List.not_mem_nil hk).elim, fun _ hk => hk,
      fun _ hk => (List.not_mem_nil hk).elim, fun _ hk => hk⟩
  | cons r rs ih =>
    intro ch h
    rw [List.foldlM_cons] at h
    obtain ⟨ch₁, h₁, h⟩ := Option.bind_eq_some_iff.mp h
    obtain ⟨hq₁, hi₁, hd₁, hs₁⟩ := request_queue h₁
    obtain ⟨hq, hi, hd, hdk, hs, hsk⟩ := ih h
    refine ⟨hq.trans hq₁, hi.trans hi₁, fun k hk => ?_, fun k hk => hdk k ((hd₁ k).mpr (.inr hk)), fun k hk => ?_,
      fun k hk => hsk k ((hs₁ k).mpr (.inr hk))⟩
    · rcases List.mem_cons.mp hk with hk | hk
      · exact hdk k ((hd₁ k).mpr (.inl hk))
      · exact hd k hk
    · rcases List.mem_cons.mp hk with hk | hk
      · exact hsk k ((hs₁ k).mpr (.inl hk))
      · exact hs k hk

omit [SmocEvent ε] [LawfulEvent ε] [Token T] in
theorem areas_new (n : Nat) (l : List T) : Areas (new n l : FifoChan T ε).toQueueFRVWPtr 0 0 0 :=
  Areas.resetQueue (q := QueueFRVWPtr.ofDepth n) (Nat.succ_pos n)

/-- In every guarded run whose drops fit an `int`, the event of a requested threshold is
active iff the threshold does not exceed the count. -/
theorem events_track_counts {l : List T} {rs : List EventRequest} {ch₀ ch₁ ch : FifoChan T ε} (hl : l.length ≤ n)
    (hreq : rs.foldlM (request b) (new n l) = some ch₀) (hreset : ch₀.doReset b = some ch₁)
    (hrun : Relation.ReflTransGen (GuardedStep b) ch₁ ch) :
    (ch.emmData.Tracks (FifoOutlet.numAvailable ch) ∧ ∀ k, .data k ∈ rs → k ∈ ch.emmData.thresholds) ∧
      ch.emmSpace.Tracks (FifoEntry.numFree ch) ∧ ∀ k, .space k ∈ rs → k ∈ ch.emmSpace.thresholds := by
  obtain ⟨hq₀, hi₀, hdata, _, hspace, _⟩ := requests_queue hreq
  have hareas : Areas ch₀.toQueueFRVWPtr 0 0 0 := by rw [hq₀]; exact areas_new n l
  obtain ⟨hc₁, hsame₁⟩ := Counted.ofReset (n := n) hareas (by rw [hq₀]; rfl) (by rw [hi₀]; exact hl) hreset
  obtain ⟨⟨c, v, p, hc⟩, hsame⟩ := Counted.run ⟨_, _, _, hc₁⟩ hrun
  refine ⟨⟨?_, fun k hk => ?_⟩, ?_, fun k hk => ?_⟩
  · rw [FifoOutlet.numAvailable, hc.areas.visibleCount_eq]
    exact hc.data
  · rw [hsame.data, hsame₁.data]
    exact hdata k hk
  · rw [FifoEntry.numFree, hc.freeCount_eq]
    exact hc.space
  · rw [hsame.space, hsame₁.space]
    exact hspace k hk

theorem events_track_counts_commit :
    ∃ ch : FifoChan Nat Bool, ch.emmSpace.Tracks 0 ∧ ch.emmData.Tracks 1 := by
  have hstep : ∃ ch₁ ch : FifoChan Nat Bool, [.data 1, .space 1].foldlM (request .checked) (new 2 [7]) >>=
      doReset .checked = some ch₁ ∧ ch₁.Guarded (.entryStart 1) ∧ ch₁.step .checked (.entryStart 1) = some ch ∧
      FifoEntry.numFree ch = 0 ∧ FifoOutlet.numAvailable ch = 1 :=
    ⟨_, _, rfl, show 1 ≤ 1 from Nat.le_refl 1, rfl, rfl, rfl⟩
  obtain ⟨ch₁, ch, hreset, hg, hs, hfree, havail⟩ := hstep
  obtain ⟨ch₀, hreq, hreset⟩ := Option.bind_eq_some_iff.mp hreset
  obtain ⟨⟨hdata, _⟩, hspace, _⟩ := events_track_counts (n := 2) (show [7].length ≤ 2 by decide) hreq hreset
    (.single ⟨.entryStart 1, hg, trivial, hs⟩)
  rw [hfree] at hspace
  rw [havail] at hdata
  exact ⟨ch, hspace, hdata⟩

/-- A `void` FIFO counts 2^31 dropped tokens as 2^64 - 2^31: an event of free space stays
active that the space no longer covers, or an assertion fails. -/
theorem dropped_count_narrowed :
    (∃ ch₀ ch₁ ch₂ ch : FifoChan Unit Bool, [.space (2 ^ 32)].foldlM (request .release) (new (2 ^ 33 - 1) []) = some ch₀ ∧
      ch₀.doReset .release = some ch₁ ∧ ch₁.Guarded (.entryStart (2 ^ 31)) ∧ ch₁.step .release (.entryStart (2 ^ 31)) = some ch₂ ∧
      ch₂.Guarded (.entryFinish (2 ^ 31) true) ∧ ch₂.step .release (.entryFinish (2 ^ 31) true) = some ch ∧
      ¬ ch.emmSpace.Tracks (FifoEntry.numFree ch)) ∧
    ([.space (2 ^ 32)].foldlM (request .checked) (new (2 ^ 33 - 1) [] : FifoChan Unit Bool) >>= (·.doReset .checked) >>=
      (·.step .checked (.entryStart (2 ^ 31))) >>= (·.step .checked (.entryFinish (2 ^ 31) true))).isNone := by
  refine ⟨?_, by decide +kernel⟩
  have hrun : (do
      let ch₀ ← [.space (2 ^ 32)].foldlM (request .release) (new (2 ^ 33 - 1) [] : FifoChan Unit Bool)
      let ch₁ ← ch₀.doReset .release
      let ch₂ ← ch₁.step .release (.entryStart (2 ^ 31))
      let ch ← ch₂.step .release (.entryFinish (2 ^ 31) true)
      return (FifoEntry.numFree ch₁, ch₂.pipelineCount, FifoEntry.numFree ch, ch.emmSpace.eventMap)) =
      some (2 ^ 33 - 1, 2 ^ 31, 2 ^ 32 - 1, [(2 ^ 32, true)]) := by decide +kernel
  simp only [Option.bind_eq_bind, Option.bind_eq_some_iff] at hrun
  obtain ⟨ch₀, hreq, ch₁, hreset, ch₂, hstart, ch, hdrop, hcounts⟩ := hrun
  simp only [Option.pure_def, Option.some.injEq, Prod.mk.injEq] at hcounts
  obtain ⟨hfree₁, hpipe, hfree, hevents⟩ := hcounts
  refine ⟨ch₀, ch₁, ch₂, ch, hreq, hreset, ?_, hstart, ?_, hdrop, fun htracks => ?_⟩
  · show _ ≤ FifoEntry.numFree ch₁
    rw [hfree₁]
    decide
  · show _ ≤ ch₂.pipelineCount
    rw [hpipe]
  · have := htracks (2 ^ 32, true) (by rw [hevents]; exact List.mem_cons_self)
    rw [hfree] at this
    cases this

/-! ## The queue in a run -/

def QueueStep (allowed : FifoOp T → Prop) (b : Build) (s s' : FifoChan T ε × AbsQueue T) : Prop :=
  ∃ op, allowed op ∧ s.1.Guarded op ∧ s.1.Fits op ∧ s.2.Placed op ∧ s.1.step b op = some s'.1 ∧
    s'.2 = s.2.step s.1.initialTokens op

omit [LawfulEvent ε] in
theorem Simulates.ofReset {c v p : Nat} (h : Areas ch.toQueueFRVWPtr c v p) (hsize : ch.fsize = n + 1)
    (hinit : ch.initialTokens.length ≤ n) :
    ∃ ch', ch.doReset b = some ch' ∧ Simulates n ch' (.initial ch.initialTokens) ∧
      ch'.initialTokens = ch.initialTokens := by
  obtain ⟨q, hq, hcar, hq'⟩ := QueueWithStorage.doReset_eq (b := b) (l := ch.initialTokens) h.rindex_lt (by omega)
  obtain ⟨ch', hs, hch, hinit'⟩ := step_of_queueStep (o := .doReset) hq
  subst hch
  exact ⟨ch', hs, ⟨hcar, hq'.trans hsize, hinit' ▸ hinit, fun _ _ ht => nomatch ht⟩, hinit'⟩

omit [LawfulEvent ε] in
theorem Simulates.run {allowed : FifoOp T → Prop} {s s' : FifoChan T ε × AbsQueue T} (h : Simulates n s.1 s.2)
    (hr : Relation.ReflTransGen (QueueStep allowed b) s s') : Simulates n s'.1 s'.2 := by
  induction hr with
  | refl => exact h
  | tail _ hstep ih =>
    obtain ⟨op, _, hg, hf, hp, hs, ha⟩ := hstep
    obtain ⟨ch', hs', hsim, _⟩ := ih.step (b := b) hg hf hp
    rw [hs, Option.some.injEq] at hs'
    rw [ha, hs']
    exact hsim

omit [LawfulEvent ε] in
theorem all_eq_written {s s' : FifoChan T ε × AbsQueue T} (h : s.2.all = s.2.written)
    (hr : Relation.ReflTransGen (QueueStep FifoOp.Plain b) s s') : s'.2.all = s'.2.written := by
  induction hr with
  | refl => exact h
  | tail _ hstep ih =>
    obtain ⟨op, hplain, _, _, _, _, ha⟩ := hstep
    rw [ha]
    exact AbsQueue.all_eq_step ih hplain

omit [SmocEvent ε] [LawfulEvent ε] [Token T] in
theorem Simulates.read_eq {a : AbsQueue T} (h : Simulates n ch a) {limit i : Nat}
    (hi : i < FifoOutlet.numAvailable ch) (hl : i < limit) :
    FifoOutlet.read b ch limit i = a.visible[i]? := by
  have hi : i < a.visible.length := by rw [← h.visibleCount_eq]; exact hi
  exact h.carries.ringRead_eq hi hl

omit [LawfulEvent ε] in
/-- In every guarded run the channel is a queue of four consecutive areas. -/
theorem fifo_refines_queue {l : List T} {rs : List EventRequest} {ch₀ : FifoChan T ε} (hl : l.length ≤ n)
    (hreq : rs.foldlM (request b) (new n l) = some ch₀) :
    ∃ ch₁, ch₀.doReset b = some ch₁ ∧ ∀ ch a,
      Relation.ReflTransGen (QueueStep FifoOp.Plain b) (ch₁, .initial l) (ch, a) →
        a.released ++ a.consumed ++ a.visible ++ a.pipeline = a.written ∧
        a.consumed.length + a.visible.length + a.pipeline.length + FifoEntry.numFree ch = n ∧
        FifoOutlet.numAvailable ch = a.visible.length ∧
        ch.usedCount = a.visible.length + a.pipeline.length ∧
        (∀ limit i, i < FifoOutlet.numAvailable ch → i < limit →
          FifoOutlet.read b ch limit i = (a.visible ++ a.pipeline)[i]?) ∧
        ∀ op, op.Plain → ch.Guarded op → a.Placed op → ∃ ch', ch.step b op = some ch' := by
  obtain ⟨hq₀, hi₀, _⟩ := requests_queue hreq
  have hareas : Areas ch₀.toQueueFRVWPtr 0 0 0 := by rw [hq₀]; exact areas_new n l
  obtain ⟨ch₁, hreset, hsim₁, _⟩ := Simulates.ofReset (b := b) hareas (by rw [hq₀]; rfl) (by rw [hi₀]; exact hl)
  rw [hi₀] at hsim₁
  refine ⟨ch₁, hreset, fun ch a hrun => ?_⟩
  have hsim : Simulates n ch a := Simulates.run hsim₁ hrun
  have hfits := hsim.carries.areas.fits
  have hfree := hsim.freeCount_eq
  rw [hsim.fsize_eq] at hfits
  refine ⟨?_, ?_, hsim.visibleCount_eq, hsim.carries.areas.usedCount_eq, fun limit i hi hlim => ?_, fun op hplain hg hp => ?_⟩
  · apply all_eq_written _ hrun
    simp [AbsQueue.all, AbsQueue.initial]
  · rw [FifoEntry.numFree]
    omega
  · rw [hsim.read_eq hi hlim, List.getElem?_append_left]
    rw [← hsim.visibleCount_eq]
    exact hi
  · obtain ⟨ch', hs, _⟩ := hsim.step (b := b) hg (FifoOp.Plain.fits hplain) hp
    exact ⟨ch', hs⟩

theorem fifo_refines_queue_commit :
    ∃ ch : FifoChan Nat Bool, FifoEntry.numFree ch = 0 ∧ FifoOutlet.read .checked ch 1 0 = some 7 := by
  have hstep : ∃ ch₁ ch ch' : FifoChan Nat Bool, doReset .checked (new 2 [7]) = some ch₁ ∧
      ch₁.Guarded (.write 1 0 8) ∧ ch₁.step .checked (.write 1 0 8) = some ch ∧
      ch.Guarded (.entryStart 1) ∧ ch.step .checked (.entryStart 1) = some ch' :=
    ⟨_, _, _, rfl, show 0 < 1 ∧ 0 < 1 by decide, rfl, show 1 ≤ 1 from Nat.le_refl 1, rfl⟩
  obtain ⟨ch₁, ch, ch', hreset, hg, hs, hg', hs'⟩ := hstep
  obtain ⟨ch₂, hreset₂, hrun⟩ := fifo_refines_queue (n := 2) (show [7].length ≤ 2 by decide)
    (show [].foldlM (request .checked) (new 2 [7] : FifoChan Nat Bool) = some _ from rfl)
  rw [hreset, Option.some.injEq] at hreset₂
  subst hreset₂
  let a := (AbsQueue.initial [7]).step ch₁.initialTokens (.write 1 0 8)
  have hplaced : a.Placed (.entryStart 1) := by
    intro i hi
    obtain rfl : i = 0 := by omega
    rfl
  have hfirst : QueueStep FifoOp.Plain .checked (ch₁, .initial [7]) (ch, a) :=
    ⟨.write 1 0 8, trivial, hg, trivial, trivial, hs, rfl⟩
  have hsecond : QueueStep FifoOp.Plain .checked (ch, a) (ch', a.step ch.initialTokens (.entryStart 1)) :=
    ⟨.entryStart 1, trivial, hg', trivial, hplaced, hs', rfl⟩
  obtain ⟨_, hcount, havail, _, hread, _⟩ := hrun _ _ (.tail (.single hfirst) hsecond)
  exact ⟨ch', Nat.add_left_cancel hcount, hread 1 0 (by rw [havail]; exact Nat.one_pos) Nat.one_pos⟩

omit [LawfulEvent ε] in
theorem visible_sublist_written {allowed : FifoOp T → Prop} {s s' : FifoChan T ε × AbsQueue T}
    (h : s.2.all.Sublist s.2.written) (hr : Relation.ReflTransGen (QueueStep allowed b) s s') :
    s'.2.visible.Sublist s'.2.written := by
  have hall : s'.2.all.Sublist s'.2.written := by
    induction hr with
    | refl => exact h
    | tail _ hstep ih =>
      obtain ⟨op, _, _, _, _, _, ha⟩ := hstep
      rw [ha]
      exact AbsQueue.all_sublist_step ih
  apply List.Sublist.trans _ hall
  rw [AbsQueue.all]
  exact ((List.sublist_append_right _ _).trans (List.sublist_append_left _ _))

/-- Resets at any point are harmless where each later finish is covered by what
has been started since and drops fit an `int`. -/
theorem reset_run_consistent {l : List T} {rs : List EventRequest} {ch₀ ch₁ : FifoChan T ε} (hl : l.length ≤ n)
    (hreq : rs.foldlM (request b) (new n l) = some ch₀) (hreset : ch₀.doReset b = some ch₁) :
    (∀ ch, Relation.ReflTransGen (GuardedStep b) ch₁ ch →
      sub ch.fsize ch.rindex ch.findex ≤ sub ch.fsize ch.vindex ch.findex ∧
      sub ch.fsize ch.vindex ch.findex ≤ sub ch.fsize ch.windex ch.findex ∧
      ch.visibleCount ≤ ch.usedCount ∧ ch.consumingCount + ch.usedCount + ch.freeCount = n) ∧
    ∀ ch a, Relation.ReflTransGen (QueueStep (fun _ => True) b) (ch₁, .initial l) (ch, a) →
      FifoOutlet.numAvailable ch = a.visible.length ∧ a.visible.Sublist a.written ∧
      ∀ limit i, i < FifoOutlet.numAvailable ch → i < limit → FifoOutlet.read b ch limit i = a.visible[i]? := by
  obtain ⟨hq₀, hi₀, _⟩ := requests_queue hreq
  have hareas : Areas ch₀.toQueueFRVWPtr 0 0 0 := by rw [hq₀]; exact areas_new n l
  have hsize : ch₀.fsize = n + 1 := by rw [hq₀]; rfl
  have hinit : ch₀.initialTokens.length ≤ n := by rw [hi₀]; exact hl
  constructor
  · intro ch hrun
    obtain ⟨hc₁, _⟩ := Counted.ofReset hareas hsize hinit hreset
    obtain ⟨⟨c, v, p, hc⟩, _⟩ := Counted.run ⟨_, _, _, hc₁⟩ hrun
    have hfits := hc.areas.fits
    have hfi := hc.areas.findex_lt
    have hv : sub ch.fsize ch.vindex ch.findex = c + v := by
      rw [hc.areas.vindex_eq]
      exact sub_add_self hfi (by omega)
    have hw : sub ch.fsize ch.windex ch.findex = c + v + p := by
      rw [hc.areas.windex_eq]
      exact sub_add_self hfi hfits
    have hn := hc.fsize_eq
    rw [hc.areas.inConsume_eq, hv, hw, hc.areas.visibleCount_eq, hc.areas.usedCount_eq, hc.consumingCount_eq,
      hc.freeCount_eq]
    omega
  · intro ch a hrun
    obtain ⟨ch₁', hreset', hsim₁, _⟩ := Simulates.ofReset (b := b) hareas hsize hinit
    rw [hreset, Option.some.injEq] at hreset'
    rw [hi₀, ← hreset'] at hsim₁
    have hsim : Simulates n ch a := Simulates.run hsim₁ hrun
    refine ⟨hsim.visibleCount_eq, ?_, fun limit i hi hlim => hsim.read_eq hi hlim⟩
    apply visible_sublist_written _ hrun
    simp [AbsQueue.all, AbsQueue.initial]

theorem reset_run_consistent_twice :
    ∃ ch : FifoChan Nat Bool, ch.visibleCount ≤ ch.usedCount ∧ ch.consumingCount + ch.usedCount + ch.freeCount = 2 := by
  have hstep : ∃ ch₁ ch : FifoChan Nat Bool, doReset .checked (new 2 [7]) = some ch₁ ∧
      ch₁.step .checked .doReset = some ch := ⟨_, _, rfl, rfl⟩
  obtain ⟨ch₁, ch, hreset, hs⟩ := hstep
  obtain ⟨hrun, _⟩ := reset_run_consistent (n := 2) (show [7].length ≤ 2 by decide)
    (show [].foldlM _ (new 2 [7]) = some _ from rfl) hreset
  exact ⟨ch, (hrun ch (.single ⟨.doReset, trivial, trivial, hs⟩)).2.2⟩

/-- A commit and a reset before the commit's latency expires: without assertions
the finish then makes two tokens visible in an empty queue, with them it fails. -/
theorem finish_after_reset :
    ((new 2 [] : FifoChan Nat Bool).doReset .release >>= (·.step .release (.entryStart 2)) >>=
      (·.step .release .doReset) >>= (·.step .release (.entryFinish 2 false))).map
        (fun ch => (ch.visibleCount, ch.usedCount)) = some (2, 0) ∧
    ((new 2 [] : FifoChan Nat Bool).doReset .checked >>= (·.step .checked (.entryStart 2)) >>=
      (·.step .checked .doReset) >>= (·.step .checked (.entryFinish 2 false))).isNone :=
  ⟨rfl, rfl⟩

end FifoChan

end SysteMoC
