import SysteMoC.Availability

/-!
# Channels of either kind as queues

In a multireader FIFO the slots of consumed tokens are not cleared, but otherwise it
does what a FIFO does.
-/

namespace SysteMoC

open Cyclic

namespace AbsQueue

variable {T : Type}

def room (n : Nat) (a : AbsQueue T) : Nat := n - (a.consumed.length + a.visible.length + a.pipeline.length)

/-- What `FifoChan.Guarded` says of a queue with `n` places. -/
def Within (n : Nat) (a : AbsQueue T) : FifoOp T → Prop
  | .write limit i _ => i < limit ∧ i < a.room n
  | .entryStart k => k ≤ a.room n
  | .entryFinish k _ => k ≤ a.pipeline.length
  | .outletStart k => k ≤ a.visible.length
  | .outletFinish k => k ≤ a.consumed.length
  | .doReset => True

end AbsQueue

namespace FifoChan

variable {T ε : Type} [SmocEvent ε] {b : Build} {n : Nat} {ch ch' head : FifoChan T ε} {a a' : AbsQueue T}

omit [SmocEvent ε] in
theorem SameConfig.trans (h : SameConfig head ch) (h' : SameConfig ch ch') : SameConfig head ch' :=
  ⟨h'.initialTokens.trans h.initialTokens, h'.data.trans h.data, h'.space.trans h.space⟩

/-- The channel holds the tokens of the queue, and its free slots what is staged. -/
structure Embodies (n : Nat) (ch : FifoChan T ε) (a : AbsQueue T) : Prop where
  serves : Serves n ch a.consumed.length a.visible a.pipeline
  staged : ∀ i t, a.staged i = some t → i < ch.freeCount ∧ ch.storage (add ch.fsize ch.windex i) = some t

/-- No reset has filled the channel yet. -/
structure Unused (n : Nat) (ch : FifoChan T ε) : Prop where
  areas : Areas ch.toQueueFRVWPtr 0 0 0
  fsize_eq : ch.fsize = n + 1
  initial_le : ch.initialTokens.length ≤ n
  data : ch.emmData.Inactive
  space : ch.emmSpace.Inactive

/-- There is a queue from the first reset on. -/
def Uses (n : Nat) (ch : FifoChan T ε) : Option (AbsQueue T) → Prop
  | none => ch.Unused n
  | some a => ch.Embodies n a

namespace Embodies

theorem freeCount_eq (h : Embodies n ch a) : ch.freeCount = a.room n := h.serves.counted.freeCount_eq

theorem guarded_iff (h : Embodies n ch a) {op : FifoOp T} : ch.Guarded op ↔ a.Within n op := by
  have hcounted := h.serves.counted
  cases op with
  | write limit i t => rw [Guarded, FifoEntry.numFree, h.freeCount_eq, AbsQueue.Within]
  | entryStart k => rw [Guarded, FifoEntry.numFree, h.freeCount_eq, AbsQueue.Within]
  | entryFinish k dropped => rw [Guarded, hcounted.pipelineCount_eq, AbsQueue.Within]
  | outletStart k => rw [Guarded, h.serves.numAvailable_eq, AbsQueue.Within]
  | outletFinish k => rw [Guarded, hcounted.consumingCount_eq, AbsQueue.Within]
  | doReset => exact Iff.rfl

theorem read_eq (h : Embodies n ch a) {limit i : Nat} (hi : i < a.visible.length) (hl : i < limit) :
    FifoOutlet.read b ch limit i = a.visible[i]? := by
  have hareas := h.serves.counted.areas
  have hfits := hareas.fits
  rw [FifoOutlet.read, ringRead, b.debugAssert_of hl, ringSlot_eq hareas.rindex_lt (by omega)]
  refine (h.serves.held i ?_).trans (List.getElem?_append_left hi)
  rw [List.length_append]
  omega

theorem data_iff (h : Embodies n ch a) {k : Nat} (hk : k ∈ ch.emmData.thresholds) :
    ch.isActiveAt (.data k) = true ↔ k ≤ a.visible.length := by
  rw [isActiveAt, h.serves.counted.data.isActiveAt_eq hk, decide_eq_true_eq]

theorem space_iff (h : Embodies n ch a) {k : Nat} (hk : k ∈ ch.emmSpace.thresholds) :
    ch.isActiveAt (.space k) = true ↔ k ≤ a.room n := by
  rw [isActiveAt, h.serves.counted.space.isActiveAt_eq hk, decide_eq_true_eq]
  exact Iff.rfl

variable [Token T] [LawfulEvent ε]

theorem moved (op : FifoOp T) (a' : AbsQueue T) {q : QueueWithStorage T} (h : Embodies n ch a) (hg : ch.Guarded op)
    (hf : ch.Fits op) (hq : queueStep b ch.toQueueWithStorage ch.initialTokens op = some q)
    (hareas : (a'.consumed.length, a'.visible.length, a'.pipeline.length) =
      areasAfter ch.initialTokens.length a.consumed.length a.visible.length a.pipeline.length op)
    (hheld : Holds q.fsize q.storage q.rindex (a'.visible ++ a'.pipeline))
    (hstaged : ∀ i t, a'.staged i = some t → i < a'.room n ∧ q.storage (add q.fsize q.windex i) = some t) :
    ∃ ch', ch.step b op = some ch' ∧ Embodies n ch' a' ∧ SameConfig ch ch' := by
  obtain ⟨ch', hs, hch, _⟩ := step_of_queueStep hq
  obtain ⟨c, v, p, heq, hc, hsame⟩ := h.serves.counted.step hg hf hs
  rw [← hareas] at heq
  cases heq
  subst hch
  refine ⟨ch', hs, ⟨⟨hc, hheld⟩, fun i t ht => ?_⟩, hsame⟩
  rw [hc.freeCount_eq]
  exact hstaged i t ht

theorem write {limit i : Nat} {t : T} (h : Embodies n ch a) (hg : ch.Guarded (.write limit i t)) :
    ∃ ch', ch.step b (.write limit i t) = some ch' ∧ Embodies n ch' (a.step ch.initialTokens (.write limit i t)) ∧
      SameConfig ch ch' := by
  have ha := h.serves.counted.areas
  have hfits := ha.fits
  have hfree := ha.freeCount_eq
  have hi : i < ch.freeCount := hg.2
  have hq : queueStep b ch.toQueueWithStorage ch.initialTokens (.write limit i t) =
      some { ch.toQueueWithStorage with storage := ch.storage.put (add ch.fsize ch.windex i) t } := by
    rw [queueStep, ringWrite, b.debugAssert_of hg.1, ringSlot_eq ha.windex_lt (by omega)]
    rfl
  refine h.moved (.write limit i t) _ hg trivial hq rfl ?_ fun j u hj => ?_
  · refine holds_congr h.serves.held fun j hj => ?_
    simp only [AbsQueue.step, List.length_append] at hj
    refine Function.update_of_ne (fun heq => ?_) _ _
    rw [ha.windex_rindex, add_add] at heq
    have := (add_inj ha.rindex_lt (by omega) (by omega)).mp heq
    omega
  · have hroom : (a.step ch.initialTokens (.write limit i t)).room n = ch.freeCount := h.freeCount_eq.symm
    rw [hroom]
    simp only [AbsQueue.step] at hj
    by_cases hji : j = i
    · subst hji
      rw [Function.update_self] at hj
      exact ⟨hi, (Function.update_self _ _ _).trans hj⟩
    · rw [Function.update_of_ne hji] at hj
      obtain ⟨hlt, hval⟩ := h.staged j u hj
      exact ⟨hlt, (update_other ha.windex_lt (by omega) (by omega) hji).trans hval⟩

theorem entryStart {k : Nat} (h : Embodies n ch a) (hg : ch.Guarded (.entryStart k)) (hp : a.Placed (.entryStart k)) :
    ∃ ch', ch.step b (.entryStart k) = some ch' ∧ Embodies n ch' (a.step ch.initialTokens (.entryStart k)) ∧
      SameConfig ch ch' := by
  have ha := h.serves.counted.areas
  have hlen : (a.stagedPrefix k).length = k := Pick.length_tabulate hp
  have hk : k ≤ ch.freeCount := hg
  have hq : queueStep b ch.toQueueWithStorage ch.initialTokens (.entryStart k) =
      some { ch.toQueueWithStorage with windex := add ch.fsize ch.windex k } := by
    simp only [queueStep, QueueWithStorage.wpp, ha.wpp_eq (b := b) hk, Option.bind_eq_bind, Option.bind_some]
    rfl
  refine h.moved (.entryStart k) _ hg trivial hq ?_ ?_ fun i t ht => ?_
  · simp only [AbsQueue.step, List.length_append, hlen]
    rfl
  · simp only [AbsQueue.step]
    rw [← List.append_assoc, holds_append]
    refine ⟨h.serves.held, fun i hi => ?_⟩
    rw [hlen] at hi
    obtain ⟨t, ht⟩ := Option.isSome_iff_exists.mp (hp i hi)
    rw [AbsQueue.stagedPrefix, Pick.getElem?_tabulate hp hi, ht, List.length_append, ← ha.windex_rindex]
    exact (h.staged i t ht).2
  · obtain ⟨hlt, hval⟩ := h.staged (i + k) t ht
    rw [h.freeCount_eq, AbsQueue.room] at hlt
    refine ⟨?_, ?_⟩
    · simp only [AbsQueue.step, AbsQueue.room, List.length_append, hlen]
      omega
    · rw [add_add, Nat.add_comm]
      exact hval

theorem entryFinish {k : Nat} (h : Embodies n ch a) (hg : ch.Guarded (.entryFinish k false)) :
    ∃ ch', ch.step b (.entryFinish k false) = some ch' ∧ Embodies n ch' (a.step ch.initialTokens (.entryFinish k false)) ∧
      SameConfig ch ch' := by
  have ha := h.serves.counted.areas
  have hk : k ≤ a.pipeline.length := h.guarded_iff.mp hg
  have hq : queueStep b ch.toQueueWithStorage ch.initialTokens (.entryFinish k false) =
      some { ch.toQueueWithStorage with vindex := add ch.fsize ch.vindex k } := by
    simp only [queueStep, Bool.false_eq_true, if_false, QueueWithStorage.vpp, ha.vpp_eq (b := b) hk, Option.bind_eq_bind,
      Option.bind_some]
    rfl
  refine h.moved (.entryFinish k false) _ hg trivial hq ?_ ?_ fun i t ht => ?_
  · simp only [AbsQueue.step, Bool.false_eq_true, if_false, List.length_append, List.length_take_of_le hk, List.length_drop]
    rfl
  · simp only [AbsQueue.step, Bool.false_eq_true, if_false, List.append_assoc, List.take_append_drop]
    exact h.serves.held
  · obtain ⟨hlt, hval⟩ := h.staged i t ht
    rw [h.freeCount_eq, AbsQueue.room] at hlt
    refine ⟨?_, hval⟩
    simp only [AbsQueue.step, AbsQueue.room, Bool.false_eq_true, if_false, List.length_append, List.length_take_of_le hk,
      List.length_drop]
    omega

theorem outletStart {k : Nat} (h : Embodies n ch a) (hg : ch.Guarded (.outletStart k)) :
    ∃ ch', ch.step b (.outletStart k) = some ch' ∧ Embodies n ch' (a.step ch.initialTokens (.outletStart k)) ∧
      SameConfig ch ch' := by
  have ha := h.serves.counted.areas
  have hfits := ha.fits
  have hfree := ha.freeCount_eq
  have hk : k ≤ a.visible.length := h.guarded_iff.mp hg
  have hq : queueStep b ch.toQueueWithStorage ch.initialTokens (.outletStart k) = some {
      toQueueFRVWPtr := { ch.toQueueFRVWPtr with rindex := add ch.fsize ch.rindex k }
      storage := ch.storage.clear ch.fsize ch.rindex k } := QueueWithStorage.rpp_eq ha hk
  -- the slots that are cleared are those the read index passes
  have hclear : ∀ i < ch.fsize, k ≤ i →
      ch.storage.clear ch.fsize ch.rindex k (add ch.fsize ch.rindex i) = ch.storage (add ch.fsize ch.rindex i) := by
    intro i hi hki
    rw [Storage.clear_add ha.rindex_lt (by omega) hi, if_neg (by omega)]
  refine h.moved (.outletStart k) _ hg trivial hq ?_ ?_ fun i t ht => ?_
  · simp only [AbsQueue.step, List.length_append, List.length_take_of_le hk, List.length_drop]
    rfl
  · have hheld := holds_drop h.serves.held (n := k) (by rw [List.length_append]; omega)
    rw [List.drop_append_of_le_length hk] at hheld
    refine holds_congr hheld fun i hi => ?_
    simp only [AbsQueue.step, List.length_append, List.length_drop] at hi
    simp only [add_add]
    exact hclear (k + i) (by omega) (Nat.le_add_right k i)
  · obtain ⟨hlt, hval⟩ := h.staged i t ht
    have hlt' := hlt
    rw [h.freeCount_eq, AbsQueue.room] at hlt'
    refine ⟨?_, ?_⟩
    · simp only [AbsQueue.step, AbsQueue.room, List.length_append, List.length_take_of_le hk, List.length_drop]
      omega
    · rw [ha.windex_rindex, add_add] at hval
      simp only [ha.windex_rindex, add_add]
      exact (hclear _ (by omega) (by omega)).trans hval

theorem outletFinish {k : Nat} (h : Embodies n ch a) (hg : ch.Guarded (.outletFinish k)) :
    ∃ ch', ch.step b (.outletFinish k) = some ch' ∧ Embodies n ch' (a.step ch.initialTokens (.outletFinish k)) ∧
      SameConfig ch ch' := by
  have ha := h.serves.counted.areas
  have hk : k ≤ a.consumed.length := h.guarded_iff.mp hg
  have hq : queueStep b ch.toQueueWithStorage ch.initialTokens (.outletFinish k) =
      some { ch.toQueueWithStorage with findex := add ch.fsize ch.findex k } := by
    simp only [queueStep, QueueWithStorage.fpp, ha.fpp_eq (b := b) hk, Option.bind_eq_bind, Option.bind_some]
    rfl
  refine h.moved (.outletFinish k) _ hg trivial hq ?_ h.serves.held fun i t ht => ?_
  · simp only [AbsQueue.step, List.length_drop]
    rfl
  · obtain ⟨hlt, hval⟩ := h.staged i t ht
    rw [h.freeCount_eq, AbsQueue.room] at hlt
    refine ⟨?_, hval⟩
    simp only [AbsQueue.step, AbsQueue.room, List.length_drop]
    omega

end Embodies

theorem embodies_reset [Token T] [LawfulEvent ε] {c v p : Nat} (ha : Areas ch.toQueueFRVWPtr c v p) (hsize : ch.fsize = n + 1)
    (hinit : ch.initialTokens.length ≤ n) :
    ∃ ch', ch.step b .doReset = some ch' ∧ Embodies n ch' (.initial ch.initialTokens) ∧ SameConfig ch ch' := by
  obtain ⟨q, hq, hcar, hq'⟩ := QueueWithStorage.doReset_eq (b := b) (l := ch.initialTokens) ha.rindex_lt (by omega)
  obtain ⟨ch', hs, hch, _⟩ := step_of_queueStep (o := .doReset) hq
  obtain ⟨hcounted, hsame⟩ := Counted.ofReset ha hsize hinit hs
  subst hch
  refine ⟨ch', hs, ⟨⟨hcounted, hcar.held⟩, ?_⟩, hsame⟩
  rintro i t ⟨⟩

namespace Embodies

variable [Token T] [LawfulEvent ε]

theorem multireaderStart {k : Nat} (h : Embodies n ch a) (hk : k ≤ a.visible.length) :
    ∃ ch', ChanKind.step .multireader b ch (.outletStart k) = some ch' ∧
      Embodies n ch' (a.step ch.initialTokens (.outletStart k)) ∧ SameConfig ch ch' := by
  have heq := h.serves.counted.areas.rpp_eq (b := b) hk
  obtain ⟨ch', hs, hserves, hsame⟩ := h.serves.take (b := b) hk
  refine ⟨ch', hs, ⟨?_, fun i t ht => ?_⟩, hsame⟩
  · simp only [AbsQueue.step, List.length_append, List.length_take_of_le hk]
    exact hserves
  · obtain ⟨hlt, hval⟩ := h.staged i t ht
    rw [h.freeCount_eq, AbsQueue.room] at hlt
    obtain ⟨q, hq, hch⟩ := Option.bind_eq_some_iff.mp hs
    rw [heq] at hq
    cases hq
    rw [hserves.counted.freeCount_eq, List.length_drop]
    cases hch
    exact ⟨by omega, hval⟩

theorem step (kind : ChanKind) (b : Build) {op : FifoOp T} (h : Embodies n ch a) (hop : op.Kept) (hw : a.Within n op)
    (hp : a.Placed op) : ∃ ch', kind.step b ch op = some ch' ∧ Embodies n ch' (a.step ch.initialTokens op) ∧
      SameConfig ch ch' := by
  have hg : ch.Guarded op := h.guarded_iff.mpr hw
  have hcounted := h.serves.counted
  have hplain : ∃ ch', ch.step b op = some ch' ∧ Embodies n ch' (a.step ch.initialTokens op) ∧ SameConfig ch ch' := by
    cases op with
    | write limit i t => exact h.write hg
    | entryStart k => exact h.entryStart hg hp
    | entryFinish k dropped =>
      cases hop
      exact h.entryFinish hg
    | outletStart k => exact h.outletStart hg
    | outletFinish k => exact h.outletFinish hg
    | doReset => exact embodies_reset hcounted.areas hcounted.fsize_eq hcounted.initial_le
  cases kind with
  | fifo => exact hplain
  | multireader =>
    cases op with
    | write | entryStart | outletFinish | doReset => exact hplain
    | outletStart k => exact h.multireaderStart hw
    | entryFinish k dropped =>
      cases hop
      rw [ChanKind.step, b.assert_of rfl]
      exact hplain

omit [LawfulEvent ε] in
theorem copied {k : Nat} (hhead : Embodies n head a) {n' : Nat} (h : Embodies n' ch a') (hk : k ≤ a.room n)
    (hk' : k ≤ a'.room n') (hp : ∀ i < k, (a.staged i).isSome) :
    ∃ ch', copyTokens b k 0 k head ch = some (head, ch') ∧
      Embodies n' ch' { a' with staged := fun i => if i < k then a.staged i else a'.staged i } ∧ SameConfig ch ch' := by
  have ha := hhead.serves.counted.areas
  have ha' := h.serves.counted.areas
  have hfits := ha'.fits
  have hfree := ha'.freeCount_eq
  have hlen : (a.stagedPrefix k).length = k := Pick.length_tabulate hp
  have hstaged : ∀ i < k, (a.stagedPrefix k)[i]? = a.staged i := fun i hi => Pick.getElem?_tabulate hp hi
  have hheld : Holds head.fsize head.storage head.windex (a.stagedPrefix k) := by
    intro i hi
    rw [hlen] at hi
    obtain ⟨t, ht⟩ := Option.isSome_iff_exists.mp (hp i hi)
    rw [hstaged i hi, ht]
    exact (hhead.staged i t ht).2
  rw [← hhead.freeCount_eq] at hk
  rw [← h.freeCount_eq] at hk'
  have hlen' : 0 + (a.stagedPrefix k).length = k := by rw [Nat.zero_add, hlen]
  have hroom : 0 + (a.stagedPrefix k).length ≤ ch.freeCount := by rw [hlen']; exact hk'
  obtain ⟨st, hst, hholds, hframe⟩ := FifoEntry.writeTokens_eq (b := b) k ch ha' (Nat.le_of_eq hlen') hroom
  rw [Cyclic.add_zero ha'.windex_lt] at hholds
  have hcopy : copyTokens b k 0 k head ch = (FifoEntry.writeTokens b ch k 0 ((a.stagedPrefix k).drop 0)).map fun ch => (head, ch) :=
    copyTokens_eq ha hheld (by rw [hlen]; exact hk) (Nat.le_of_eq hlen) (by rw [Nat.zero_add, hlen])
  rw [List.drop_zero, hst] at hcopy
  refine ⟨{ ch with storage := st }, hcopy, ⟨⟨⟨ha', h.serves.counted.fsize_eq, h.serves.counted.initial_le,
    h.serves.counted.data, h.serves.counted.space⟩, ?_⟩, fun i t ht => ?_⟩, rfl, rfl, rfl⟩
  · refine holds_congr h.serves.held fun i hi => hframe _ fun j hj => ?_
    simp only [List.length_append] at hi
    rw [hlen] at hj
    rw [ha'.windex_rindex, add_add]
    intro heq
    have := (add_inj ha'.rindex_lt (by omega) (by omega)).mp heq
    omega
  · by_cases hi : i < k
    · simp only [hi, if_true] at ht
      refine ⟨Nat.lt_of_lt_of_le hi hk', ?_⟩
      exact (hholds i (by rw [hlen]; exact hi)).trans ((hstaged i hi).trans ht)
    · simp only [hi, if_false] at ht
      obtain ⟨hlt, hval⟩ := h.staged i t ht
      refine ⟨hlt, (hframe _ fun j hj heq => ?_).trans hval⟩
      rw [hlen] at hj
      rw [Nat.zero_add] at heq
      have hlt : i < ch.freeCount := hlt
      have := (add_inj ha'.windex_lt (by omega) (by omega)).mp heq
      omega

end Embodies

namespace Uses

theorem not_active_of_inactive {em : EventMapManager ε} {k : Nat} (h : em.Inactive) : ¬ em.isActiveAt k = true := by
  intro hk
  obtain ⟨e, he, ha⟩ := EventMapManager.mem_of_isActiveAt hk
  rw [h _ he] at ha
  cases ha

theorem data_iff {q : Option (AbsQueue T)} (h : Uses n ch q) {k : Nat} (hk : k ∈ ch.emmData.thresholds) :
    ch.isActiveAt (.data k) = true ↔ ∃ a ∈ q, k ≤ a.visible.length := by
  cases q with
  | none => exact iff_of_false (not_active_of_inactive (Unused.data h)) (by rintro ⟨_, ⟨⟩, _⟩)
  | some a => simpa using Embodies.data_iff h hk

theorem space_iff {q : Option (AbsQueue T)} (h : Uses n ch q) {k : Nat} (hk : k ∈ ch.emmSpace.thresholds) :
    ch.isActiveAt (.space k) = true ↔ ∃ a ∈ q, k ≤ a.room n := by
  cases q with
  | none => exact iff_of_false (not_active_of_inactive (Unused.space h)) (by rintro ⟨_, ⟨⟩, _⟩)
  | some a => simpa using Embodies.space_iff h hk

theorem reset [Token T] [LawfulEvent ε] {q : Option (AbsQueue T)} (kind : ChanKind) (b : Build) (h : Uses n ch q) :
    ∃ ch', kind.step b ch .doReset = some ch' ∧ Embodies n ch' (.initial ch.initialTokens) ∧ SameConfig ch ch' := by
  have hplain : ∃ ch', ch.step b .doReset = some ch' ∧ Embodies n ch' (.initial ch.initialTokens) ∧ SameConfig ch ch' := by
    cases q with
    | none => exact embodies_reset (Unused.areas h) (Unused.fsize_eq h) (Unused.initial_le h)
    | some a =>
      have hcounted := (show Embodies n ch a from h).serves.counted
      exact embodies_reset hcounted.areas hcounted.fsize_eq hcounted.initial_le
  cases kind with
  | fifo => exact hplain
  | multireader => exact hplain

end Uses

theorem unused_requests [LawfulEvent ε] {kind : ChanKind} {l : List T} {rs : List EventRequest} (hl : l.length ≤ n)
    (h : rs.foldlM (kind.request b) (.new n l : FifoChan T ε) = some ch) :
    ch.Unused n ∧ ch.initialTokens = l ∧ (∀ k, .data k ∈ rs → k ∈ ch.emmData.thresholds) ∧
      ∀ k, .space k ∈ rs → k ∈ ch.emmSpace.thresholds := by
  obtain ⟨hq, hi, hdata, _, hspace, _⟩ := requests_queue (ChanKind.requests_plain h)
  obtain ⟨hd, hs⟩ := ChanKind.inactive_requests h (by intro _ hp; cases hp) (by intro _ hp; cases hp)
  refine ⟨⟨?_, ?_, ?_, hd, hs⟩, hi, hdata, hspace⟩
  · rw [hq]
    exact areas_new n l
  · rw [hq]
    rfl
  · rw [hi]
    exact hl

end FifoChan

end SysteMoC
