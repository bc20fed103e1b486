import SysteMoC.Channel

/-!
# Parties of a multireader FIFO

Any number of writers and readers share one ring and one set of events. A party
starts within the counts and finishes, in any order, what it has started. A
token goes to the reader whose start takes it.
-/

namespace SysteMoC

open Cyclic FifoChan

section
variable {T ε : Type}

def FifoEntry.writeTokens (b : Build) (ch : FifoChan T ε) (limit : Nat) : Nat → List T → Option (FifoChan T ε)
  | _, [] => some ch
  | i, t :: ts => do
    let ch ← FifoEntry.write b ch limit i t
    writeTokens b ch limit (i + 1) ts

def FifoOutlet.readTokens (b : Build) (ch : FifoChan T ε) (k : Nat) : Option (List T) :=
  (List.range k).mapM (FifoOutlet.read b ch k)

end

inductive PartyOp (P T : Type) where
  | commit (party : P) (ts : List T)
  | commitDone (party : P) (k : Nat)
  | take (party : P) (k : Nat)
  | takeDone (party : P) (k : Nat)

structure Parties (P T ε : Type) where
  chan : FifoChan T ε
  /-- The commits whose latency and the reads whose consumption has not expired. -/
  committing : List (P × Nat)
  consuming : List (P × Nat)
  /-- The initial tokens and those of the commits. -/
  committed : List T
  handed : List (P × List T)

namespace Parties

variable {P T ε : Type}

def initial (chan : FifoChan T ε) (l : List T) : Parties P T ε := ⟨chan, [], [], l, []⟩

def handedTokens (s : Parties P T ε) : List T := s.handed.flatMap Prod.snd

def Allowed (s : Parties P T ε) : PartyOp P T → Prop
  | .commit _ ts => ts.length ≤ FifoEntry.numFree s.chan
  | .commitDone p k => (p, k) ∈ s.committing
  | .take _ k => k ≤ FifoOutlet.numAvailable s.chan
  | .takeDone p k => (p, k) ∈ s.consuming

variable [DecidableEq P] [Token T] [SmocEvent ε]

def step (b : Build) (s : Parties P T ε) : PartyOp P T → Option (Parties P T ε)
  | .commit p ts => do
    let ch ← FifoEntry.writeTokens b s.chan ts.length 0 ts
    let ch ← ChanKind.step .multireader b ch (.entryStart ts.length)
    return { s with
      chan := ch
      committing := (p, ts.length) :: s.committing
      committed := s.committed ++ ts }
  | .commitDone p k => do
    let ch ← ChanKind.step .multireader b s.chan (.entryFinish k false)
    return { s with chan := ch, committing := s.committing.erase (p, k) }
  | .take p k => do
    let ts ← FifoOutlet.readTokens b s.chan k
    let ch ← ChanKind.step .multireader b s.chan (.outletStart k)
    return { s with
      chan := ch
      consuming := (p, k) :: s.consuming
      handed := s.handed ++ [(p, ts)] }
  | .takeDone p k => do
    let ch ← ChanKind.step .multireader b s.chan (.outletFinish k)
    return { s with chan := ch, consuming := s.consuming.erase (p, k) }

def Step (b : Build) (s s' : Parties P T ε) : Prop := ∃ op, s.Allowed op ∧ s.step b op = some s'

end Parties

/-! ## Placing and reading tokens -/

section
variable {T ε : Type} {b : Build} {ch : FifoChan T ε} {c v p : Nat}

theorem FifoEntry.writeTokens_eq (limit : Nat) {ts : List T} : ∀ {i : Nat} (ch : FifoChan T ε),
    Areas ch.toQueueFRVWPtr c v p → i + ts.length ≤ limit → i + ts.length ≤ ch.freeCount →
    ∃ st, writeTokens b ch limit i ts = some { ch with storage := st } ∧
      Holds ch.fsize st (add ch.fsize ch.windex i) ts ∧
      ∀ x, (∀ j < ts.length, x ≠ add ch.fsize ch.windex (i + j)) → st x = ch.storage x := by
  induction ts with
  | nil =>
    intro i ch _ _ _
    exact ⟨ch.storage, rfl, holds_nil, fun _ _ => rfl⟩
  | cons t ts ih =>
    intro i ch h hlimit hfree
    rw [List.length_cons] at hlimit hfree
    have hcount := h.freeCount_eq
    have hw := h.windex_lt
    have hput : FifoEntry.write b ch limit i t =
        some { ch with storage := ch.storage.put (add ch.fsize ch.windex i) t } := by
      rw [FifoEntry.write, ringWrite, b.debugAssert_of (by omega), ringSlot_eq hw (by omega)]
      rfl
    obtain ⟨st, hst, hholds, hframe⟩ := ih (i := i + 1)
      { ch with storage := ch.storage.put (add ch.fsize ch.windex i) t } h (by omega)
      (show _ ≤ ch.freeCount by omega)
    refine ⟨st, ?_, ?_, fun x hx => ?_⟩
    · rw [writeTokens, hput]
      exact hst
    · intro j hj
      cases j with
      | zero =>
        rw [add_add, hframe]
        · exact Function.update_self _ _ _
        · intro j hj heq
          have := (add_inj hw (by omega) (by omega)).mp heq
          omega
      | succ j =>
        rw [add_add, show i + (j + 1) = i + 1 + j by omega, ← add_add]
        exact hholds j (Nat.lt_of_succ_lt_succ hj)
    · rw [hframe x fun j hj => ?_]
      · exact Function.update_of_ne (hx 0 (Nat.succ_pos _)) _ _
      · rw [show i + 1 + j = i + (j + 1) by omega]
        exact hx (j + 1) (Nat.succ_lt_succ hj)

theorem FifoOutlet.readTokens_eq {l : List T} {k : Nat} (hr : ch.rindex < ch.fsize) (hl : l.length ≤ ch.fsize)
    (hheld : Holds ch.fsize ch.storage ch.rindex l) (hk : k ≤ l.length) :
    FifoOutlet.readTokens b ch k = some (l.take k) := by
  have hread : ∀ i < k, FifoOutlet.read b ch k i = l[i]? := by
    intro i hi
    rw [FifoOutlet.read, ringRead, b.debugAssert_of hi, ringSlot_eq hr (by omega)]
    exact hheld i (by omega)
  have htake : ∀ j ≤ k, (List.range j).mapM (FifoOutlet.read b ch k) = some (l.take j) := by
    intro j hj
    induction j with
    | zero => rfl
    | succ j ih =>
      rw [List.range_succ, List.mapM_append, ih (by omega), List.mapM_cons, hread j (by omega),
        List.getElem?_eq_getElem (by omega), List.take_succ_eq_append_getElem (by omega)]
      rfl
  exact htake k (Nat.le_refl k)

end

/-! ## The channel between the parties -/

variable {T ε : Type} [SmocEvent ε] {b : Build} {n : Nat} {ch : FifoChan T ε}

/-- What `Simulates` says of a FIFO, but for slots whose tokens are consumed: these stay. -/
structure Serves (n : Nat) (ch : FifoChan T ε) (c : Nat) (visible pipeline : List T) : Prop where
  counted : Counted n ch c visible.length pipeline.length
  held : Holds ch.fsize ch.storage ch.rindex (visible ++ pipeline)

namespace Serves

variable {c k : Nat} {visible pipeline : List T}

theorem numFree_eq (h : Serves n ch c visible pipeline) :
    FifoEntry.numFree ch = n - (c + visible.length + pipeline.length) := h.counted.freeCount_eq

theorem numAvailable_eq (h : Serves n ch c visible pipeline) : FifoOutlet.numAvailable ch = visible.length :=
  h.counted.areas.visibleCount_eq

theorem readTokens_eq (h : Serves n ch c visible pipeline) (hk : k ≤ visible.length) :
    FifoOutlet.readTokens b ch k = some (visible.take k) := by
  have hfits := h.counted.areas.fits
  rw [FifoOutlet.readTokens_eq h.counted.areas.rindex_lt (by rw [List.length_append]; omega) h.held
    (by rw [List.length_append]; omega), List.take_append_of_le_length hk]

variable [Token T] [LawfulEvent ε]

theorem moved (op : FifoOp T) (c' : Nat) (visible' pipeline' : List T) {q : QueueWithStorage T}
    (h : Serves n ch c visible pipeline) (hg : ch.Guarded op) (hf : ch.Fits op)
    (hq : queueStep b ch.toQueueWithStorage ch.initialTokens op = some q)
    (hareas : (c', visible'.length, pipeline'.length) =
      areasAfter ch.initialTokens.length c visible.length pipeline.length op)
    (hheld : Holds q.fsize q.storage q.rindex (visible' ++ pipeline')) :
    ∃ ch', ch.step b op = some ch' ∧ Serves n ch' c' visible' pipeline' ∧ SameConfig ch ch' := by
  obtain ⟨ch', hs, hch, _⟩ := step_of_queueStep hq
  obtain ⟨c₁, v₁, p₁, heq, hc, hsame⟩ := h.counted.step hg hf hs
  rw [← hareas] at heq
  cases heq
  subst hch
  exact ⟨ch', hs, ⟨hc, hheld⟩, hsame⟩

theorem commit {ts : List T} (h : Serves n ch c visible pipeline) (hts : ts.length ≤ FifoEntry.numFree ch) :
    ∃ ch₁ ch', FifoEntry.writeTokens b ch ts.length 0 ts = some ch₁ ∧
      ChanKind.step .multireader b ch₁ (.entryStart ts.length) = some ch' ∧
      Serves n ch' c visible (pipeline ++ ts) ∧ SameConfig ch ch' := by
  have ha := h.counted.areas
  have hfits := ha.fits
  have hcount := ha.freeCount_eq
  have hts' : ts.length ≤ ch.freeCount := hts
  obtain ⟨st, hst, hholds, hframe⟩ := FifoEntry.writeTokens_eq (b := b) (i := 0) ts.length ch ha (Nat.le_of_eq (Nat.zero_add _))
    (by rw [Nat.zero_add]; exact hts)
  rw [Cyclic.add_zero ha.windex_lt] at hholds
  have hkept : Holds ch.fsize st ch.rindex (visible ++ pipeline) := by
    refine holds_congr h.held fun i hi => hframe _ fun j hj => ?_
    rw [List.length_append] at hi
    -- counted from the read index, the new slots lie behind the held ones
    rw [ha.windex_rindex, add_add]
    intro heq
    have := (add_inj ha.rindex_lt (by omega) (by omega)).mp heq
    omega
  let ch₁ : FifoChan T ε := { ch with storage := st }
  have h₁ : Serves n ch₁ c visible pipeline :=
    ⟨⟨ha, h.counted.fsize_eq, h.counted.initial_le, h.counted.data, h.counted.space⟩, hkept⟩
  have hq : queueStep b ch₁.toQueueWithStorage ch₁.initialTokens (.entryStart ts.length) =
      some { ch₁.toQueueWithStorage with windex := add ch.fsize ch.windex ts.length } := by
    simp only [queueStep, QueueWithStorage.wpp, h₁.counted.areas.wpp_eq (b := b) hts', Option.bind_eq_bind,
      Option.bind_some]
    rfl
  obtain ⟨ch', hs, h', hsame⟩ := moved (.entryStart ts.length) c visible (pipeline ++ ts) h₁ hts' trivial hq
    (by rw [List.length_append]; rfl)
    (by
      rw [← List.append_assoc, holds_append, List.length_append]
      refine ⟨hkept, ?_⟩
      rw [ha.windex_rindex] at hholds
      exact hholds)
  exact ⟨ch₁, ch', hst, hs, h', ⟨hsame.initialTokens, hsame.data, hsame.space⟩⟩

theorem commitDone (h : Serves n ch c visible pipeline) (hk : k ≤ pipeline.length) :
    ∃ ch', ChanKind.step .multireader b ch (.entryFinish k false) = some ch' ∧
      Serves n ch' c (visible ++ pipeline.take k) (pipeline.drop k) ∧ SameConfig ch ch' := by
  have hq : queueStep b ch.toQueueWithStorage ch.initialTokens (.entryFinish k false) =
      some { ch.toQueueWithStorage with vindex := add ch.fsize ch.vindex k } := by
    simp only [queueStep, Bool.false_eq_true, if_false, QueueWithStorage.vpp, h.counted.areas.vpp_eq (b := b) hk,
      Option.bind_eq_bind, Option.bind_some]
    rfl
  obtain ⟨ch', hs, h', hsame⟩ := moved (.entryFinish k false) c (visible ++ pipeline.take k) (pipeline.drop k) h
    (by rw [← h.counted.pipelineCount_eq] at hk; exact hk) trivial hq
    (by rw [List.length_append, List.length_take_of_le hk, List.length_drop]; rfl)
    (by rw [List.append_assoc, List.take_append_drop]; exact h.held)
  refine ⟨ch', ?_, h', hsame⟩
  rw [ChanKind.step, b.assert_of rfl]
  exact hs

/-- The walk with renotification leaves the events as the early-exit walk would. -/
theorem take (h : Serves n ch c visible pipeline) (hk : k ≤ visible.length) :
    ∃ ch', ChanKind.step .multireader b ch (.outletStart k) = some ch' ∧
      Serves n ch' (c + k) (visible.drop k) pipeline ∧ SameConfig ch ch' := by
  have ha := h.counted.areas.rpp hk
  let q : QueueFRVWPtr := { ch.toQueueFRVWPtr with rindex := add ch.fsize ch.rindex k }
  refine ⟨{ ch.withQueue { toQueueFRVWPtr := q, storage := ch.storage } with
    emmData := ch.emmData.decreasedCountRenotify q.visibleCount }, ?_, ⟨⟨?_, h.counted.fsize_eq,
      h.counted.initial_le, ?_, ?_⟩, ?_⟩, ⟨rfl, EventMapManager.thresholds_decreasedCountRenotify, rfl⟩⟩
  · simp only [ChanKind.step, ChanKind.renotifyConsume, h.counted.areas.rpp_eq hk, Option.bind_eq_bind, Option.bind_some]
    rfl
  · rw [List.length_drop]
    exact ha
  · have hvisible : q.visibleCount = visible.length - k := ha.visibleCount_eq
    rw [List.length_drop]
    simp only [hvisible]
    exact h.counted.data.decreasedCountRenotify (Nat.sub_le _ _)
  · rw [List.length_drop, show c + k + (visible.length - k) + pipeline.length = c + visible.length + pipeline.length by omega]
    exact h.counted.space
  · have hheld := holds_drop h.held (n := k) (by rw [List.length_append]; omega)
    rw [List.drop_append_of_le_length hk] at hheld
    exact hheld

theorem takeDone (h : Serves n ch c visible pipeline) (hk : k ≤ c) :
    ∃ ch', ChanKind.step .multireader b ch (.outletFinish k) = some ch' ∧
      Serves n ch' (c - k) visible pipeline ∧ SameConfig ch ch' := by
  have hq : queueStep b ch.toQueueWithStorage ch.initialTokens (.outletFinish k) =
      some { ch.toQueueWithStorage with findex := add ch.fsize ch.findex k } := by
    simp only [queueStep, QueueWithStorage.fpp, h.counted.areas.fpp_eq (b := b) hk, Option.bind_eq_bind, Option.bind_some]
    rfl
  exact moved (.outletFinish k) (c - k) visible pipeline h (by rw [← h.counted.consumingCount_eq] at hk; exact hk) trivial
      hq rfl h.held

end Serves

/-! ## Runs of the parties -/

namespace Parties

variable {P : Type}

theorem sum_erase [DecidableEq P] {l : List (P × Nat)} {p : P} {k : Nat} (h : (p, k) ∈ l) :
    k + ((l.erase (p, k)).map Prod.snd).sum = (l.map Prod.snd).sum := by
  have hperm := (List.perm_cons_erase h).map Prod.snd
  rw [hperm.sum_nat, List.map_cons, List.sum_cons]

/-- Both sides of the channel are accounted for by the calls that are outstanding. -/
structure Balanced (n : Nat) (s : Parties P T ε) (visible pipeline : List T) : Prop where
  serves : Serves n s.chan (s.consuming.map Prod.snd).sum visible pipeline
  committing : (s.committing.map Prod.snd).sum = pipeline.length
  order : s.committed = s.handedTokens ++ (visible ++ pipeline)

variable [DecidableEq P] [Token T] [LawfulEvent ε] {s s' : Parties P T ε} {visible pipeline : List T}

theorem Balanced.step {op : PartyOp P T} (h : s.Balanced n visible pipeline) (hop : s.Allowed op) :
    ∃ s' visible' pipeline', s.step b op = some s' ∧ s'.Balanced n visible' pipeline' ∧
      SameConfig s.chan s'.chan := by
  cases op with
  | commit p ts =>
    obtain ⟨ch₁, ch', hwrite, hs, hserves, hsame⟩ := h.serves.commit (b := b) hop
    refine ⟨{ s with
      chan := ch'
      committing := (p, ts.length) :: s.committing
      committed := s.committed ++ ts }, visible, pipeline ++ ts, ?_, ⟨hserves, ?_, ?_⟩, hsame⟩
    · simp only [Parties.step, hwrite, hs, Option.bind_eq_bind, Option.bind_some]
      rfl
    · rw [List.map_cons, List.sum_cons, h.committing, List.length_append, Nat.add_comm]
    · rw [h.order, ← List.append_assoc visible, List.append_assoc]
      rfl
  | commitDone p k =>
    have hsum := sum_erase hop
    rw [h.committing] at hsum
    have hk : k ≤ pipeline.length := by rw [← hsum]; exact Nat.le_add_right _ _
    obtain ⟨ch', hs, hserves, hsame⟩ := h.serves.commitDone (b := b) hk
    refine ⟨{ s with chan := ch', committing := s.committing.erase (p, k) }, visible ++ pipeline.take k,
      pipeline.drop k, ?_, ⟨hserves, ?_, ?_⟩, hsame⟩
    · rw [Parties.step, hs]
      rfl
    · rw [List.length_drop, ← hsum]
      exact (Nat.add_sub_cancel_left _ _).symm
    · rw [List.append_assoc, List.take_append_drop]
      exact h.order
  | take p k =>
    have hk : k ≤ visible.length := by rw [← h.serves.numAvailable_eq]; exact hop
    obtain ⟨ch', hs, hserves, hsame⟩ := h.serves.take (b := b) hk
    refine ⟨{ s with
      chan := ch'
      consuming := (p, k) :: s.consuming
      handed := s.handed ++ [(p, visible.take k)] }, visible.drop k, pipeline, ?_, ⟨?_, h.committing, ?_⟩, hsame⟩
    · simp only [Parties.step, h.serves.readTokens_eq hk, hs, Option.bind_eq_bind, Option.bind_some]
      rfl
    · rw [List.map_cons, List.sum_cons, Nat.add_comm]
      exact hserves
    · rw [h.order, handedTokens, handedTokens, List.flatMap_append, List.append_assoc, List.flatMap_singleton,
        ← List.append_assoc (visible.take k), List.take_append_drop]
  | takeDone p k =>
    have hsum := sum_erase hop
    obtain ⟨ch', hs, hserves, hsame⟩ := h.serves.takeDone (b := b) (k := k) (by rw [← hsum]; exact Nat.le_add_right _ _)
    refine ⟨{ s with chan := ch', consuming := s.consuming.erase (p, k) }, visible, pipeline, ?_,
      ⟨?_, h.committing, h.order⟩, hsame⟩
    · rw [Parties.step, hs]
      rfl
    · rw [← hsum, Nat.add_sub_cancel_left] at hserves
      exact hserves

theorem Balanced.run (h : s.Balanced n visible pipeline) (hr : Relation.ReflTransGen (Step b) s s') :
    ∃ visible' pipeline', s'.Balanced n visible' pipeline' ∧ SameConfig s.chan s'.chan := by
  induction hr with
  | refl => exact ⟨visible, pipeline, h, rfl, rfl, rfl⟩
  | tail _ hstep ih =>
    obtain ⟨op, hop, hs⟩ := hstep
    obtain ⟨visible₁, pipeline₁, h₁, hsame₁⟩ := ih
    obtain ⟨s₂, visible₂, pipeline₂, hs₂, h₂, hsame₂⟩ := h₁.step (b := b) hop
    rw [hs, Option.some.injEq] at hs₂
    subst hs₂
    exact ⟨visible₂, pipeline₂, h₂, hsame₂.initialTokens.trans hsame₁.initialTokens, hsame₂.data.trans hsame₁.data,
      hsame₂.space.trans hsame₁.space⟩

/-- However the parties interleave, their readers get the initial and the
committed tokens in the order of the commits, each token once, and the events
say the counts. -/
theorem tokens_handed_once {l : List T} {rs : List EventRequest} {ch₀ : FifoChan T ε} (hl : l.length ≤ n)
    (hreq : rs.foldlM (ChanKind.request .multireader b) (.new n l) = some ch₀) :
    ∃ ch₁, ch₀.doReset b = some ch₁ ∧
      ∀ s : Parties P T ε, Relation.ReflTransGen (Step b) (initial ch₁ l) s →
        (∃ waiting, s.committed = s.handedTokens ++ waiting ∧
          (∀ k, k ≤ FifoOutlet.numAvailable s.chan → FifoOutlet.readTokens b s.chan k = some (waiting.take k)) ∧
          waiting.length = FifoOutlet.numAvailable s.chan + (s.committing.map Prod.snd).sum ∧
          (s.consuming.map Prod.snd).sum + waiting.length + FifoEntry.numFree s.chan = n) ∧
        (s.chan.emmData.Tracks (FifoOutlet.numAvailable s.chan) ∧ ∀ k, .data k ∈ rs → k ∈ s.chan.emmData.thresholds) ∧
        (s.chan.emmSpace.Tracks (FifoEntry.numFree s.chan) ∧ ∀ k, .space k ∈ rs → k ∈ s.chan.emmSpace.thresholds) ∧
        ∀ op, s.Allowed op → (s.step b op).isSome := by
  obtain ⟨hq₀, hi₀, hdata, _, hspace, _⟩ := requests_queue (ChanKind.requests_plain hreq)
  have hareas : Areas ch₀.toQueueFRVWPtr 0 0 0 := by rw [hq₀]; exact areas_new n l
  have hsize : ch₀.fsize = n + 1 := by rw [hq₀]; rfl
  have hinit : ch₀.initialTokens.length ≤ n := by rw [hi₀]; exact hl
  obtain ⟨ch₁, hreset, hsim, _⟩ := Simulates.ofReset (b := b) hareas hsize hinit
  obtain ⟨hcounted, hsame₁⟩ := Counted.ofReset hareas hsize hinit hreset
  rw [hi₀] at hsim hcounted
  have h₁ : (initial ch₁ l : Parties P T ε).Balanced n l [] :=
    ⟨⟨hcounted, hsim.carries.held⟩, rfl, (List.append_nil l).symm⟩
  refine ⟨ch₁, hreset, fun s hrun => ?_⟩
  obtain ⟨visible, pipeline, h, hsame⟩ := h₁.run hrun
  have havail := h.serves.numAvailable_eq
  have hfree := h.serves.numFree_eq
  have hfits := h.serves.counted.areas.fits
  rw [h.serves.counted.fsize_eq] at hfits
  refine ⟨⟨visible ++ pipeline, h.order, fun k hk => ?_, ?_, ?_⟩, ⟨?_, fun k hk => ?_⟩, ⟨?_, fun k hk => ?_⟩,
    fun op hop => ?_⟩
  · rw [havail] at hk
    rw [h.serves.readTokens_eq hk, List.take_append_of_le_length hk]
  · rw [List.length_append, havail, h.committing]
  · rw [List.length_append, hfree]
    omega
  · rw [havail]
    exact h.serves.counted.data
  · rw [hsame.data]
    exact hsame₁.data ▸ hdata k hk
  · rw [hfree]
    exact h.serves.counted.space
  · rw [hsame.space]
    exact hsame₁.space ▸ hspace k hk
  · obtain ⟨s', _, _, hs, _⟩ := h.step (b := b) hop
    rw [hs]
    rfl

theorem tokens_handed_once_take :
    ∃ s : Parties Bool Nat Bool, s.committed = s.handedTokens ++ [8] ∧ s.handedTokens = [7] ∧
      s.chan.emmData.Tracks 0 := by
  have hruns : ([.data 1, .space 1].foldlM (ChanKind.request .multireader .checked) (.new 2 [7] : FifoChan Nat Bool) >>=
      doReset .checked >>= fun ch₁ => (initial ch₁ [7] : Parties Bool Nat Bool).step .checked (.commit false [8]) >>=
      fun s₁ => (s₁.step .checked (.take true 1)).map fun s => (FifoEntry.numFree ch₁, FifoOutlet.numAvailable s₁.chan,
        FifoOutlet.numAvailable s.chan, s.committed, s.handedTokens)) = some (1, 1, 0, [7, 8], [7]) := by
    decide +kernel
  obtain ⟨ch₁, hreset, hruns⟩ := Option.bind_eq_some_iff.mp hruns
  obtain ⟨ch₀, hreq, hreset⟩ := Option.bind_eq_some_iff.mp hreset
  obtain ⟨s₁, hs₁, hruns⟩ := Option.bind_eq_some_iff.mp hruns
  obtain ⟨s, hs, hruns⟩ := Option.map_eq_some_iff.mp hruns
  simp only [Prod.mk.injEq] at hruns
  obtain ⟨hfree, havail, havail', hcommitted, hhanded⟩ := hruns
  obtain ⟨ch₁', hreset', hrun⟩ := tokens_handed_once (n := 2) (l := [7]) (P := Bool) (by decide) hreq
  rw [hreset, Option.some.injEq] at hreset'
  subst hreset'
  have hcommit : Step .checked (initial ch₁ [7]) s₁ := ⟨.commit false [8], Nat.le_of_eq hfree.symm, hs₁⟩
  have htake : Step .checked s₁ s := ⟨.take true 1, Nat.le_of_eq havail.symm, hs⟩
  obtain ⟨⟨waiting, horder, _⟩, ⟨hdata, _⟩, _⟩ := hrun s (.tail (.single hcommit) htake)
  rw [havail'] at hdata
  rw [hcommitted, hhanded] at horder
  cases horder
  exact ⟨s, by rw [hcommitted, hhanded]; rfl, hhanded, hdata⟩

end Parties

end SysteMoC
