import SysteMoC.FifoSound

/-!
# Token channels

A FIFO and a multireader FIFO share the ring, the storage and the events. Outlets
of a multireader FIFO renotify; its entries do not drop tokens.
-/

namespace SysteMoC

inductive ChanKind where
  | fifo
  | multireader
deriving DecidableEq

namespace ChanKind

variable {T ε : Type} [SmocEvent ε]

/-- `smoc_multireader_fifo_chan_base::consume`: its `rpp` is that of the index class. -/
def renotifyConsume (b : Build) (ch : FifoChan T ε) (consume : Nat) : Option (FifoChan T ε) := do
  let base ← ch.toQueueFRVWPtr.rpp b consume
  let ch := ch.withQueue { toQueueFRVWPtr := base, storage := ch.storage }
  return { ch with emmData := ch.emmData.decreasedCountRenotify ch.visibleCount }

def step [Token T] (kind : ChanKind) (b : Build) (ch : FifoChan T ε) (op : FifoOp T) : Option (FifoChan T ε) :=
  match kind, op with
  | .multireader, .outletStart k => renotifyConsume b ch k
  | .multireader, .entryFinish k dropped => do
    b.assert (dropped = false)
    ch.latencyExpired b k
  | _, op => ch.step b op

def request (kind : ChanKind) (b : Build) (ch : FifoChan T ε) (r : EventRequest) : Option (FifoChan T ε) :=
  match kind, r with
  | .multireader, .data n => do
    b.assert (n ≠ 0)
    ch.request b (.data n)
  | .multireader, .space n => do
    b.assert (n ≠ 0)
    ch.request b (.space n)
  | .fifo, r => ch.request b r

/-- Only a FIFO drops tokens. -/
def GuardedStep [Token T] (kind : ChanKind) (b : Build) (ch ch' : FifoChan T ε) : Prop :=
  ∃ op, ch.Guarded op ∧ (kind = .fifo → ch.Fits op) ∧ kind.step b ch op = some ch'

def commExecIn [Token T] (kind : ChanKind) (b : Build) (ch : FifoChan T ε) (consume : Nat) : Option (FifoChan T ε) := do
  let ch ← kind.step b ch (.outletStart consume)
  kind.step b ch (.outletFinish consume)

def commExecOut [Token T] (kind : ChanKind) (b : Build) (ch : FifoChan T ε) (produce : Nat) : Option (FifoChan T ε) := do
  let ch ← kind.step b ch (.entryStart produce)
  kind.step b ch (.entryFinish produce false)

end ChanKind

/-- The states of a channel of depth `n` after elaboration with the requests `rs`. -/
def Elaborated {T ε : Type} [Token T] [SmocEvent ε] (kind : ChanKind) (b : Build) (n : Nat) (rs : List EventRequest)
    (ch : FifoChan T ε) : Prop :=
  ∃ l ch₀ ch₁, l.length ≤ n ∧ rs.foldlM (kind.request b) (.new n l) = some ch₀ ∧ ch₀.doReset b = some ch₁ ∧
    Relation.ReflTransGen (kind.GuardedStep b) ch₁ ch

/-! ## Counts and events -/

namespace ChanKind

open FifoChan

variable {T ε : Type} [SmocEvent ε] {kind : ChanKind} {b : Build} {n : Nat} {ch ch' : FifoChan T ε}

theorem request_plain {r : EventRequest} (h : kind.request b ch r = some ch') : ch.request b r = some ch' := by
  cases kind with
  | fifo => exact h
  | multireader =>
    cases r with
    | data n | space n => exact (Option.bind_eq_some_iff.mp h).choose_spec.2

theorem requests_plain {rs : List EventRequest} : ∀ {ch : FifoChan T ε}, rs.foldlM (kind.request b) ch = some ch' →
    rs.foldlM (FifoChan.request b) ch = some ch' := by
  induction rs with
  | nil => exact fun h => h
  | cons r rs ih =>
    intro ch h
    rw [List.foldlM_cons] at h ⊢
    obtain ⟨ch₁, h₁, h⟩ := Option.bind_eq_some_iff.mp h
    rw [request_plain h₁]
    exact ih h

variable [LawfulEvent ε]

theorem counted_step [Token T] {op : FifoOp T} (h : ∃ c v p, Counted n ch c v p) (hg : ch.Guarded op)
    (hf : kind = .fifo → ch.Fits op) (hs : kind.step b ch op = some ch') :
    (∃ c v p, Counted n ch' c v p) ∧ SameConfig ch ch' := by
  obtain ⟨c, v, p, h⟩ := h
  have hplain : ∀ op : FifoOp T, ch.Guarded op → ch.Fits op → ch.step b op = some ch' →
      (∃ c v p, Counted n ch' c v p) ∧ SameConfig ch ch' := by
    intro op hg hf hs
    obtain ⟨c', v', p', _, hc, hsame⟩ := h.step hg hf hs
    exact ⟨⟨c', v', p', hc⟩, hsame⟩
  cases kind with
  | fifo => exact hplain op hg (hf rfl) hs
  | multireader =>
    cases op with
    | write | entryStart | outletFinish | doReset => exact hplain _ hg trivial hs
    | entryFinish k dropped =>
      obtain ⟨_, _, hs⟩ := Option.bind_eq_some_iff.mp hs
      exact hplain (.entryFinish k false) hg trivial hs
    | outletStart k =>
      have hk : k ≤ v := by rw [← h.areas.visibleCount_eq]; exact hg
      obtain ⟨q, hbase, heq⟩ := Option.bind_eq_some_iff.mp hs
      cases heq
      rw [h.areas.rpp_eq hk] at hbase
      have ha : Areas q (c + k) (v - k) p := by
        rw [← Option.some.inj hbase]
        exact h.areas.rpp hk
      have hq' : q.fsize = n + 1 := by rw [← Option.some.inj hbase]; exact h.fsize_eq
      refine ⟨⟨c + k, v - k, p, ⟨ha, hq', h.initial_le, ?_, ?_⟩⟩,
        ⟨rfl, EventMapManager.thresholds_decreasedCountRenotify, rfl⟩⟩
      · show (ch.emmData.decreasedCountRenotify q.visibleCount).Tracks _
        rw [ha.visibleCount_eq]
        exact h.data.decreasedCountRenotify (Nat.sub_le v k)
      · rw [show c + k + (v - k) + p = c + v + p by omega]
        exact h.space

theorem counted_run [Token T] {ch₁ ch₂ : FifoChan T ε} (h : ∃ c v p, Counted n ch₁ c v p)
    (hr : Relation.ReflTransGen (kind.GuardedStep b) ch₁ ch₂) :
    (∃ c v p, Counted n ch₂ c v p) ∧ SameConfig ch₁ ch₂ := by
  induction hr with
  | refl => exact ⟨h, rfl, rfl, rfl⟩
  | tail _ hstep ih =>
    obtain ⟨op, hg, hf, hs⟩ := hstep
    obtain ⟨hc, hsame⟩ := counted_step ih.1 hg hf hs
    exact ⟨hc, hsame.initialTokens.trans ih.2.initialTokens, hsame.data.trans ih.2.data,
      hsame.space.trans ih.2.space⟩

end ChanKind

namespace Elaborated

open FifoChan

variable {T ε : Type} [Token T] [SmocEvent ε] [LawfulEvent ε] {kind : ChanKind} {b : Build} {n : Nat}
  {rs : List EventRequest} {ch ch' : FifoChan T ε}

theorem counted (h : Elaborated kind b n rs ch) :
    (∃ c v p, Counted n ch c v p) ∧ (∀ k, .data k ∈ rs → k ∈ ch.emmData.thresholds) ∧
      ∀ k, .space k ∈ rs → k ∈ ch.emmSpace.thresholds := by
  obtain ⟨l, ch₀, ch₁, hl, hreq, hreset, hrun⟩ := h
  obtain ⟨hq₀, hi₀, hdata, _, hspace, _⟩ := requests_queue (ChanKind.requests_plain hreq)
  have hareas : Areas ch₀.toQueueFRVWPtr 0 0 0 := by rw [hq₀]; exact areas_new n l
  obtain ⟨hc₁, hsame₁⟩ := Counted.ofReset (n := n) hareas (by rw [hq₀]; rfl) (by rw [hi₀]; exact hl) hreset
  obtain ⟨hc, hsame⟩ := ChanKind.counted_run ⟨_, _, _, hc₁⟩ hrun
  refine ⟨hc, fun k hk => ?_, fun k hk => ?_⟩
  · rw [hsame.data, hsame₁.data]
    exact hdata k hk
  · rw [hsame.space, hsame₁.space]
    exact hspace k hk

theorem exists_reset {l : List T} {ch₀ : FifoChan T ε} (hl : l.length ≤ n)
    (hreq : rs.foldlM (kind.request b) (.new n l) = some ch₀) :
    ∃ ch : FifoChan T ε, Elaborated kind b n rs ch ∧ ch.initialTokens = l ∧ Counted n ch 0 l.length 0 := by
  obtain ⟨hq₀, hi₀, _⟩ := requests_queue (ChanKind.requests_plain hreq)
  have hareas : Areas ch₀.toQueueFRVWPtr 0 0 0 := by rw [hq₀]; exact areas_new n l
  have hsize : ch₀.fsize = n + 1 := by rw [hq₀]; rfl
  have hinit : ch₀.initialTokens.length ≤ n := by rw [hi₀]; exact hl
  obtain ⟨ch, hreset, _⟩ := Simulates.ofReset (b := b) hareas hsize hinit
  obtain ⟨hc, hsame⟩ := Counted.ofReset hareas hsize hinit hreset
  rw [hi₀] at hc
  exact ⟨ch, ⟨l, ch₀, ch, hl, hreq, hreset, Relation.ReflTransGen.refl⟩, hsame.initialTokens.trans hi₀, hc⟩

theorem ofReset {l : List T} {ch₀ : FifoChan T ε} (hl : l.length ≤ n)
    (hreq : rs.foldlM (kind.request b) (.new n l) = some ch₀) :
    ∃ ch : FifoChan T ε, Elaborated kind b n rs ch ∧ Counted n ch 0 l.length 0 := by
  obtain ⟨ch, hel, -, hc⟩ := exists_reset hl hreq
  exact ⟨ch, hel, hc⟩

omit [LawfulEvent ε] in
theorem run (h : Elaborated kind b n rs ch) (hr : Relation.ReflTransGen (kind.GuardedStep b) ch ch') :
    Elaborated kind b n rs ch' := by
  obtain ⟨l, ch₀, ch₁, hl, hreq, hreset, hrun⟩ := h
  exact ⟨l, ch₀, ch₁, hl, hreq, hreset, hrun.trans hr⟩

end Elaborated

/-! ## Executing a communication -/

namespace ChanKind

variable {T ε : Type} [Token T] [SmocEvent ε] {kind : ChanKind} {b : Build} {ch : FifoChan T ε} {c v p k : Nat}

theorem outletStart_eq (h : Areas ch.toQueueFRVWPtr c v p) (hk : k ≤ v) :
    ∃ ch', kind.step b ch (.outletStart k) = some ch' ∧ Areas ch'.toQueueFRVWPtr (c + k) (v - k) p ∧
      ch'.fsize = ch.fsize := by
  have hr := h.rindex_lt
  have hassert : k - min k (ch.fsize - ch.rindex) = 0 ∨ ch.rindex + min k (ch.fsize - ch.rindex) = ch.fsize := by
    omega
  have hareas := h.rpp hk
  cases kind with
  | fifo =>
    simp only [step, FifoChan.step, FifoOutlet.commStart, QueueWithStorage.rpp, b.assert_of hassert, h.rpp_eq hk,
      Option.bind_eq_bind, Option.bind_some]
    exact ⟨_, rfl, hareas, rfl⟩
  | multireader =>
    simp only [step, renotifyConsume, h.rpp_eq hk, Option.bind_eq_bind, Option.bind_some]
    exact ⟨_, rfl, hareas, rfl⟩

theorem outletFinish_eq (h : Areas ch.toQueueFRVWPtr c v p) (hk : k ≤ c) :
    ∃ ch', kind.step b ch (.outletFinish k) = some ch' ∧ Areas ch'.toQueueFRVWPtr (c - k) v p ∧
      ch'.fsize = ch.fsize := by
  have hareas := h.fpp hk
  have hstep : kind.step b ch (.outletFinish k) = ch.readConsumeEventExpired b k := by
    cases kind <;> exact FifoOutlet.commFinish_eq
  rw [hstep]
  simp only [FifoChan.readConsumeEventExpired, QueueWithStorage.fpp, h.fpp_eq hk, Option.bind_eq_bind,
    Option.bind_some]
  exact ⟨_, rfl, hareas, rfl⟩

theorem entryStart_eq (h : Areas ch.toQueueFRVWPtr c v p) (hk : k ≤ ch.freeCount) :
    ∃ ch', kind.step b ch (.entryStart k) = some ch' ∧ Areas ch'.toQueueFRVWPtr c v (p + k) ∧
      ch'.fsize = ch.fsize := by
  have hareas := h.wpp hk
  have hstep : kind.step b ch (.entryStart k) = FifoEntry.commStart b ch k := by
    cases kind <;> rfl
  rw [hstep]
  simp only [FifoEntry.commStart, QueueWithStorage.wpp, h.wpp_eq hk, Option.bind_eq_bind, Option.bind_some]
  exact ⟨_, rfl, hareas, rfl⟩

theorem entryFinish_eq (h : Areas ch.toQueueFRVWPtr c v p) (hk : k ≤ p) :
    ∃ ch', kind.step b ch (.entryFinish k false) = some ch' ∧ Areas ch'.toQueueFRVWPtr c (v + k) (p - k) ∧
      ch'.fsize = ch.fsize := by
  have hareas := h.vpp hk
  have hstep : kind.step b ch (.entryFinish k false) = ch.latencyExpired b k := by
    cases kind with
    | fifo => rfl
    | multireader =>
      rw [step, b.assert_of rfl]
      rfl
  rw [hstep]
  simp only [FifoChan.latencyExpired, QueueWithStorage.vpp, h.vpp_eq hk, Option.bind_eq_bind, Option.bind_some]
  exact ⟨_, rfl, hareas, rfl⟩

theorem commExecIn_eq (h : Areas ch.toQueueFRVWPtr c v p) (hk : k ≤ v) :
    ∃ ch', kind.commExecIn b ch k = some ch' ∧ Areas ch'.toQueueFRVWPtr c (v - k) p ∧ ch'.fsize = ch.fsize := by
  obtain ⟨ch₁, hstart, ha₁, hsize₁⟩ := outletStart_eq h hk
  obtain ⟨ch₂, hfinish, ha₂, hsize₂⟩ := outletFinish_eq ha₁ (Nat.le_add_left k c)
  rw [Nat.add_sub_cancel] at ha₂
  refine ⟨ch₂, ?_, ha₂, hsize₂.trans hsize₁⟩
  rw [commExecIn, hstart]
  exact hfinish

theorem le_of_commExecOut {ch' : FifoChan T ε} (h : kind.commExecOut .checked ch k = some ch') : k ≤ ch.freeCount := by
  obtain ⟨ch₁, hstart, -⟩ := Option.bind_eq_some_iff.mp h
  have hplain : FifoEntry.commStart .checked ch k = some ch₁ := by
    cases kind <;> exact hstart
  obtain ⟨q, hq, -⟩ := Option.bind_eq_some_iff.mp hplain
  obtain ⟨base, hbase, -⟩ := Option.bind_eq_some_iff.mp hq
  obtain ⟨_, hassert, -⟩ := Option.bind_eq_some_iff.mp hbase
  by_contra hlt
  simp [Build.debugAssert, Build.assert, Build.checked, hlt] at hassert

variable {n : Nat} [LawfulEvent ε]

omit [Token T] [LawfulEvent ε] in
theorem counted_of_areas {c' v' p' : Nat} (h : FifoChan.Counted n ch c v p)
    (ha : Areas ch.toQueueFRVWPtr c' v' p') : FifoChan.Counted n ch c' v' p' := by
  obtain rfl : c = c' := h.areas.inConsume_eq.symm.trans ha.inConsume_eq
  obtain rfl : v = v' := h.areas.visibleCount_eq.symm.trans ha.visibleCount_eq
  obtain rfl : p = p' := h.areas.pipeline_eq.symm.trans ha.pipeline_eq
  exact h

theorem commExecIn_run (kind : ChanKind) (b : Build) (h : FifoChan.Counted n ch c v p) (hk : k ≤ v) :
    ∃ ch', kind.commExecIn b ch k = some ch' ∧ Relation.ReflTransGen (kind.GuardedStep b) ch ch' ∧
      FifoChan.Counted n ch' c (v - k) p ∧ ch'.initialTokens = ch.initialTokens := by
  obtain ⟨ch₁, hstart, ha₁, -⟩ := outletStart_eq h.areas hk
  obtain ⟨ch₂, hfinish, ha₂, -⟩ := outletFinish_eq ha₁ (Nat.le_add_left k c)
  rw [Nat.add_sub_cancel] at ha₂
  have hg₁ : ch.Guarded (.outletStart k) := hk.trans_eq h.areas.visibleCount_eq.symm
  have hg₂ : ch₁.Guarded (.outletFinish k) := (Nat.le_add_left k c).trans_eq ha₁.inConsume_eq.symm
  have hrun : Relation.ReflTransGen (kind.GuardedStep b) ch ch₂ :=
    .tail (.single ⟨_, hg₁, fun _ => trivial, hstart⟩) ⟨_, hg₂, fun _ => trivial, hfinish⟩
  obtain ⟨⟨_, _, _, hc⟩, hsame⟩ := counted_run ⟨_, _, _, h⟩ hrun
  exact ⟨ch₂, by rw [commExecIn, hstart]; exact hfinish, hrun, counted_of_areas hc ha₂, hsame.initialTokens⟩

theorem commExecOut_run (kind : ChanKind) (b : Build) (h : FifoChan.Counted n ch c v p) (hk : k ≤ ch.freeCount) :
    ∃ ch', kind.commExecOut b ch k = some ch' ∧ Relation.ReflTransGen (kind.GuardedStep b) ch ch' ∧
      FifoChan.Counted n ch' c (v + k) p ∧ ch'.initialTokens = ch.initialTokens := by
  obtain ⟨ch₁, hstart, ha₁, -⟩ := entryStart_eq h.areas hk
  obtain ⟨ch₂, hfinish, ha₂, -⟩ := entryFinish_eq ha₁ (Nat.le_add_left k p)
  rw [Nat.add_sub_cancel] at ha₂
  have hg₁ : ch.Guarded (.entryStart k) := hk
  have hg₂ : ch₁.Guarded (.entryFinish k false) := (Nat.le_add_left k p).trans_eq ha₁.pipeline_eq.symm
  have hrun : Relation.ReflTransGen (kind.GuardedStep b) ch ch₂ :=
    .tail (.single ⟨_, hg₁, fun _ => trivial, hstart⟩) ⟨_, hg₂, fun _ => trivial, hfinish⟩
  obtain ⟨⟨_, _, _, hc⟩, hsame⟩ := counted_run ⟨_, _, _, h⟩ hrun
  exact ⟨ch₂, by rw [commExecOut, hstart]; exact hfinish, hrun, counted_of_areas hc ha₂, hsame.initialTokens⟩

theorem doReset_run (kind : ChanKind) (b : Build) (h : FifoChan.Counted n ch c v p) :
    ∃ ch', kind.step b ch .doReset = some ch' ∧ FifoChan.Counted n ch' 0 ch.initialTokens.length 0 ∧
      ch'.initialTokens = ch.initialTokens := by
  obtain ⟨ch', hs, -⟩ := FifoChan.Simulates.ofReset (b := b) h.areas h.fsize_eq h.initial_le
  obtain ⟨hc, hsame⟩ := FifoChan.Counted.ofReset h.areas h.fsize_eq h.initial_le hs
  refine ⟨ch', ?_, hc, hsame.initialTokens⟩
  cases kind <;> exact hs

end ChanKind

theorem Elaborated.exists_filled {T ε : Type} [Token T] [SmocEvent ε] [LawfulEvent ε] [Inhabited T] {kind : ChanKind} {b : Build}
    {n i v : Nat} {rs : List EventRequest} (hel : ∀ l, ∃ ch₀ : FifoChan T ε, rs.foldlM (kind.request b) (.new n l) = some ch₀)
    (hi : i ≤ n) (hv : v ≤ n) :
    ∃ ch : FifoChan T ε, Elaborated kind b n rs ch ∧ ch.initialTokens.length = i ∧ ch.visibleCount = v ∧ ch.freeCount = n - v := by
  have hlen : (List.replicate i (default : T)).length = i := List.length_replicate
  obtain ⟨ch₀, hreq⟩ := hel (List.replicate i default)
  obtain ⟨ch, hch, hinit, hc⟩ := exists_reset (hlen.trans_le hi) hreq
  rw [hlen] at hc
  have hinit : ch.initialTokens.length = i := (congrArg List.length hinit).trans hlen
  rcases Nat.le_total v i with hle | hle
  · obtain ⟨ch', -, hrun, hc', hinit'⟩ := ChanKind.commExecIn_run kind b hc (Nat.sub_le i v)
    refine ⟨ch', hch.run hrun, (congrArg List.length hinit').trans hinit, ?_, ?_⟩
    · rw [hc'.areas.visibleCount_eq]
      omega
    · rw [hc'.freeCount_eq]
      omega
  · have hfree : v - i ≤ ch.freeCount := by
      rw [hc.freeCount_eq]
      omega
    obtain ⟨ch', -, hrun, hc', hinit'⟩ := ChanKind.commExecOut_run kind b hc hfree
    refine ⟨ch', hch.run hrun, (congrArg List.length hinit').trans hinit, ?_, ?_⟩
    · rw [hc'.areas.visibleCount_eq]
      omega
    · rw [hc'.freeCount_eq]
      omega

end SysteMoC
