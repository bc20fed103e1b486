import SysteMoC.ChannelQueue
import SysteMoC.Multiplex

/-!
# Multiplex FIFOs with one reader

Where no virtual outlet is registered, the channel's own outlet takes the tokens of all
entries: a FIFO, in which each virtual entry puts its colour on what it commits.
-/

namespace SysteMoC

open Cyclic
open FifoChan (Embodies Uses SameConfig)

namespace MultiplexFifoEntry

variable {T ε : Type} [SmocEvent ε]

def spaceAvailableEvent (b : Build) (ch : MultiplexFifoChan T ε) (n : Nat) : Option (MultiplexFifoChan T ε) := do
  let em ← ch.emmFree.getEvent b n
  return { ch with emmFree := em }

end MultiplexFifoEntry

namespace MultiplexFifoOutlet

variable {T ε : Type} [SmocEvent ε]

def commStart (b : Build) (ch : MultiplexFifoChan T ε) (consume : Nat) : Option (MultiplexFifoChan T ε) := do
  let q ← ch.toQueueWithStorage.rpp b consume
  let ch := ch.withQueue q
  return { ch with emmAvailable := ch.emmAvailable.decreasedCount ch.visibleCount }

def commFinish (b : Build) (ch : MultiplexFifoChan T ε) (consume : Nat) (dropped : Bool) : Option (MultiplexFifoChan T ε) := do
  b.assert (dropped = false)
  ch.readConsumeEventExpired b consume

def dataAvailableEvent (b : Build) (ch : MultiplexFifoChan T ε) (n : Nat) : Option (MultiplexFifoChan T ε) := do
  let em ← ch.emmAvailable.getEvent b n
  return { ch with emmAvailable := em }

def numAvailable (ch : MultiplexFifoChan T ε) : Nat := ch.visibleCount

def read (b : Build) (ch : MultiplexFifoChan T ε) (limit i : Nat) : Option T :=
  ringRead b limit ch.storage ch.fsize ch.rindex i

end MultiplexFifoOutlet

inductive MergeOp (T : Type) where
  | write (limit i : Nat) (t : T)
  | entryStart (entry : Option Nat) (k : Nat)
  | entryFinish (k : Nat)
  | outletStart (k : Nat)
  | outletFinish (k : Nat)
  | doReset

def MergeOp.plain {T : Type} : MergeOp T → FifoOp T
  | .write limit i t => .write limit i t
  | .entryStart _ k => .entryStart k
  | .entryFinish k => .entryFinish k false
  | .outletStart k => .outletStart k
  | .outletFinish k => .outletFinish k
  | .doReset => .doReset

namespace AbsQueue

variable {T : Type} [ColorAccessor T]

/-- The first `k` tokens that are placed, as an entry commits them. -/
def colored (a : AbsQueue T) : Option Nat → Nat → AbsQueue T
  | none, _ => a
  | some fifoId, k => { a with staged := fun i => if i < k then (a.staged i).map (ColorAccessor.put · fifoId) else a.staged i }

def merge (initialTokens : List T) (a : AbsQueue T) : MergeOp T → AbsQueue T
  | .entryStart entry k => (a.colored entry k).step initialTokens (.entryStart k)
  | op => a.step initialTokens op.plain

variable {a : AbsQueue T} {entry : Option Nat} {n k : Nat} {op : MergeOp T}

theorem colored_zero {fifoId : Nat} : a.colored (some fifoId) 0 = a := by
  simp [colored]

theorem room_colored : (a.colored entry k).room n = a.room n := by
  cases entry with
  | none | some => rfl

theorem placed_colored (h : a.Placed (.entryStart k)) : (a.colored entry k).Placed (.entryStart k) := by
  cases entry with
  | none => exact h
  | some fifoId =>
    intro i hi
    simp only [colored, if_pos hi, Option.isSome_map]
    exact h i hi

theorem all_merge {ts : List T} (h : a.all = a.written) : (a.merge ts op).all = (a.merge ts op).written := by
  have hstep : ∀ {a : AbsQueue T} {o : FifoOp T}, a.all = a.written → o.Plain → (a.step ts o).all = (a.step ts o).written :=
    fun h ho => all_eq_step h ho
  cases op with
  | write => exact hstep h trivial
  | entryStart entry k =>
    refine hstep ?_ trivial
    cases entry with
    | none | some => exact h
  | entryFinish => exact hstep h rfl
  | outletStart | outletFinish => exact hstep h trivial
  | doReset => simp [merge, MergeOp.plain, step, all, initial]

end AbsQueue

namespace MultiplexFifoChan

variable {T ε : Type}

def toFifoChan (ch : MultiplexFifoChan T ε) : FifoChan T ε where
  toQueueWithStorage := ch.toQueueWithStorage
  initialTokens := ch.initialTokens
  emmData := ch.emmAvailable
  emmSpace := ch.emmFree
  tokenId := 0

variable [SmocEvent ε] {b : Build} {n m k : Nat} {ch ch' : MultiplexFifoChan T ε} {a : AbsQueue T}

def request (b : Build) (ch : MultiplexFifoChan T ε) : EventRequest → Option (MultiplexFifoChan T ε)
  | .data n => MultiplexFifoOutlet.dataAvailableEvent b ch n
  | .space n => MultiplexFifoEntry.spaceAvailableEvent b ch n

variable [Token T] [ColorAccessor T]

def mergeStep (b : Build) (ch : MultiplexFifoChan T ε) : MergeOp T → Option (MultiplexFifoChan T ε)
  | .write limit i t => MultiplexVFifoEntry.write b ch limit i t
  | .entryStart none k => MultiplexFifoEntry.commStart b ch k
  | .entryStart (some fifoId) k => MultiplexVFifoEntry.commStart b ch fifoId k
  | .entryFinish k => MultiplexFifoEntry.commFinish b ch k false
  | .outletStart k => MultiplexFifoOutlet.commStart b ch k
  | .outletFinish k => MultiplexFifoOutlet.commFinish b ch k false
  | .doReset => ch.doReset b

/-! ## Operations -/

variable [LawfulEvent ε]

/-- What a channel becomes, with the queue it is. -/
def Merges (b : Build) (n : Nat) (ch : MultiplexFifoChan T ε) (a : AbsQueue T) (op : MergeOp T) : Prop :=
  ∃ ch', ch.mergeStep b op = some ch' ∧ Embodies n ch'.toFifoChan (a.merge ch.initialTokens op) ∧ ch'.vOutlets = ch.vOutlets ∧
    SameConfig ch.toFifoChan ch'.toFifoChan

theorem merges_write {limit i : Nat} {t : T} (h : Embodies n ch.toFifoChan a) (hg : ch.toFifoChan.Guarded (.write limit i t)) :
    Merges b n ch a (.write limit i t) := by
  obtain ⟨c, hc, hembodies, hsame⟩ := h.write (b := b) hg
  obtain ⟨st, hst, heq⟩ := Option.bind_eq_some_iff.mp hc
  cases heq
  exact ⟨{ ch with storage := st }, Option.bind_eq_some_iff.mpr ⟨st, hst, rfl⟩, hembodies, rfl, hsame⟩

theorem colorLoop_merges {fifoId : Nat} (h : Embodies n ch.toFifoChan a) (hk : k ≤ a.room n) (hp : a.Placed (.entryStart k))
    (r : Nat) : ∀ {j st}, j + r = k → Embodies n { ch with storage := st }.toFifoChan (a.colored (some fifoId) j) →
      ∃ st', MultiplexVFifoEntry.colorLoop ch.fsize fifoId r st (add ch.fsize ch.windex j) = some st' ∧
        Embodies n { ch with storage := st' }.toFifoChan (a.colored (some fifoId) k) := by
  have ha : Areas ch.toQueueFRVWPtr a.consumed.length a.visible.length a.pipeline.length := h.serves.counted.areas
  have hfits := ha.fits
  have hroom : ch.freeCount = a.room n := h.freeCount_eq
  have hfree := ha.freeCount_eq
  have hw : ch.windex < ch.fsize := ha.windex_lt
  induction r with
  | zero =>
    intro j st hj hst
    obtain rfl : j = k := hj
    exact ⟨st, rfl, hst⟩
  | succ r ih =>
    intro j st hj hst
    obtain ⟨t, ht⟩ := Option.isSome_iff_exists.mp (hp j (by omega))
    have hslot : st (add ch.fsize ch.windex j) = some t := by
      refine (hst.staged j t ?_).2
      simp only [AbsQueue.colored, Nat.lt_irrefl, if_false]
      exact ht
    have hnext : (if add ch.fsize ch.windex j + 1 ≥ ch.fsize then add ch.fsize ch.windex j + 1 - ch.fsize
        else add ch.fsize ch.windex j + 1) = add ch.fsize ch.windex (j + 1) := by
      rw [← add_add, add_eq (add_lt ha.fsize_pos) (by omega)]
      split <;> split <;> omega
    have hg : (a.colored (some fifoId) j).Within n (.write (j + 1) j (ColorAccessor.put t fifoId)) :=
      ⟨Nat.lt_succ_self j, by rw [AbsQueue.room_colored]; omega⟩
    obtain ⟨c, hc, hembodies, _⟩ := hst.write (b := .checked) (hst.guarded_iff.mpr hg)
    obtain ⟨st', hput, heq⟩ := Option.bind_eq_some_iff.mp hc
    cases heq
    rw [ringWrite, Build.checked.debugAssert_of (Nat.lt_succ_self j)] at hput
    have hput : some (st.put (ringSlot ch.fsize ch.windex j) (ColorAccessor.put t fifoId)) = some st' := hput
    rw [ringSlot_eq hw (by omega), Option.some.injEq] at hput
    have hcolored : (a.colored (some fifoId) j).step ch.initialTokens (.write (j + 1) j (ColorAccessor.put t fifoId)) =
        a.colored (some fifoId) (j + 1) := by
      simp only [AbsQueue.step, AbsQueue.colored]
      congr 1
      funext i
      by_cases hi : i = j
      · subst hi
        rw [Function.update_self, if_pos (Nat.lt_succ_self i), ht]
        rfl
      · rw [Function.update_of_ne hi]
        by_cases hlt : i < j
        · rw [if_pos hlt, if_pos (by omega)]
        · rw [if_neg hlt, if_neg (by omega)]
    obtain ⟨st'', hloop, hembodies'⟩ := ih (show j + 1 + r = k by omega) (hcolored ▸ hembodies)
    refine ⟨st'', ?_, hembodies'⟩
    rw [MultiplexVFifoEntry.colorLoop, hnext]
    simp only [Storage.get, hslot, Option.bind_eq_bind, Option.bind_some, hput]
    exact hloop

theorem merges_entryStart {entry : Option Nat} (h : Embodies n ch.toFifoChan a) (hk : k ≤ a.room n)
    (hp : a.Placed (.entryStart k)) : Merges b n ch a (.entryStart entry k) := by
  have hstart : ∀ {st : Storage T}, Embodies n { ch with storage := st }.toFifoChan (a.colored entry k) → ∃ ch',
      MultiplexFifoEntry.commStart b { ch with storage := st } k = some ch' ∧
        Embodies n ch'.toFifoChan (a.merge ch.initialTokens (.entryStart entry k)) ∧ ch'.vOutlets = ch.vOutlets ∧
          SameConfig ch.toFifoChan ch'.toFifoChan := by
    intro st hst
    obtain ⟨c, hc, hembodies, hsame⟩ := hst.entryStart (b := b)
      (hst.guarded_iff.mpr (by rw [AbsQueue.Within, AbsQueue.room_colored]; exact hk)) (AbsQueue.placed_colored hp)
    obtain ⟨q, hq, heq⟩ := Option.bind_eq_some_iff.mp hc
    cases heq
    refine ⟨_, Option.bind_eq_some_iff.mpr ⟨q, hq, rfl⟩, ?_, rfl, hsame.initialTokens, hsame.data, hsame.space⟩
    have hcounted := hembodies.serves.counted
    exact ⟨⟨⟨hcounted.areas, hcounted.fsize_eq, hcounted.initial_le, hcounted.data, hcounted.space⟩, hembodies.serves.held⟩,
      hembodies.staged⟩
  cases entry with
  | none =>
    obtain ⟨ch', hch, hrest⟩ := hstart h
    exact ⟨ch', hch, hrest⟩
  | some fifoId =>
    have hzero : Embodies n ch.toFifoChan (a.colored (some fifoId) 0) := by
      rw [AbsQueue.colored_zero]
      exact h
    obtain ⟨st, hloop, hst⟩ := colorLoop_merges h hk hp k (Nat.zero_add k) hzero
    have ha : Areas ch.toQueueFRVWPtr a.consumed.length a.visible.length a.pipeline.length := h.serves.counted.areas
    rw [add_zero ha.windex_lt] at hloop
    obtain ⟨ch', hch, hrest⟩ := hstart hst
    refine ⟨ch', ?_, hrest⟩
    rw [mergeStep, MultiplexVFifoEntry.commStart]
    simp only [Option.bind_eq_bind]
    exact Option.bind_eq_some_iff.mpr ⟨st, hloop, hch⟩

theorem merges_entryFinish (h : Embodies n ch.toFifoChan a) (hv : ch.vOutlets = []) (hk : k ≤ a.pipeline.length) :
    Merges b n ch a (.entryFinish k) := by
  have hg : a.Within n (.entryFinish k false) := hk
  obtain ⟨c, hc, hembodies, hsame⟩ := h.entryFinish (b := b) (h.guarded_iff.mpr hg)
  obtain ⟨q, hq, heq⟩ := Option.bind_eq_some_iff.mp hc
  cases heq
  have hcount : k ≤ q.visibleCount := by
    have hvisible : q.visibleCount = _ := hembodies.serves.counted.areas.visibleCount_eq
    simp only [AbsQueue.step, Bool.false_eq_true, if_false, List.length_append, List.length_take_of_le hk] at hvisible
    omega
  refine ⟨{ ch with toQueueWithStorage := q, emmAvailable := ch.emmAvailable.increasedCount q.visibleCount }, ?_, hembodies, rfl,
    hsame⟩
  have hq : ch.toQueueWithStorage.vpp b k = some q := hq
  rw [mergeStep, MultiplexFifoEntry.commFinish, b.assert_of rfl]
  simp only [latencyExpired, hq, withQueue, hv, b.assert_of hcount, Option.bind_eq_bind, Option.bind_some, ne_eq,
    not_true_eq_false, if_false]
  rfl

theorem merges_outletStart (h : Embodies n ch.toFifoChan a) (hk : k ≤ a.visible.length) : Merges b n ch a (.outletStart k) := by
  have hg : a.Within n (.outletStart k) := hk
  obtain ⟨c, hc, hembodies, hsame⟩ := h.outletStart (b := b) (h.guarded_iff.mpr hg)
  obtain ⟨q, hq, heq⟩ := Option.bind_eq_some_iff.mp hc
  cases heq
  exact ⟨{ ch with toQueueWithStorage := q, emmAvailable := ch.emmAvailable.decreasedCount q.visibleCount },
    Option.bind_eq_some_iff.mpr ⟨q, hq, rfl⟩, hembodies, rfl, hsame⟩

theorem merges_outletFinish (h : Embodies n ch.toFifoChan a) (hk : k ≤ a.consumed.length) :
    Merges b n ch a (.outletFinish k) := by
  have hg : a.Within n (.outletFinish k) := hk
  obtain ⟨c, hc, hembodies, hsame⟩ := h.outletFinish (b := b) (h.guarded_iff.mpr hg)
  have hc : FifoOutlet.commFinish b ch.toFifoChan k false = some c := hc
  rw [FifoOutlet.commFinish_eq] at hc
  obtain ⟨q, hq, heq⟩ := Option.bind_eq_some_iff.mp hc
  cases heq
  refine ⟨{ ch with toQueueWithStorage := q, emmFree := ch.emmFree.increasedCount q.freeCount }, ?_, hembodies, rfl, hsame⟩
  rw [mergeStep, MultiplexFifoOutlet.commFinish, b.assert_of rfl]
  show ch.readConsumeEventExpired b k = _
  exact Option.bind_eq_some_iff.mpr ⟨q, hq, rfl⟩

theorem merges_doReset {q : Option (AbsQueue T)} (b : Build) (h : Uses n ch.toFifoChan q) (hv : ch.vOutlets = []) :
    ∃ ch', ch.mergeStep b .doReset = some ch' ∧ Embodies n ch'.toFifoChan (.initial ch.initialTokens) ∧
      ch'.vOutlets = ch.vOutlets ∧ SameConfig ch.toFifoChan ch'.toFifoChan := by
  obtain ⟨c, hc, hembodies, hsame⟩ := h.reset .fifo b
  obtain ⟨q, hq, heq⟩ := Option.bind_eq_some_iff.mp hc
  cases heq
  refine ⟨{ ch with
    toQueueWithStorage := q
    emmFree := ch.emmFree.reset.increasedCount q.freeCount
    emmAvailable := ch.emmAvailable.reset.increasedCount q.visibleCount }, ?_, hembodies, rfl, hsame⟩
  have hq : ch.toQueueWithStorage.doReset b ch.initialTokens = some q := hq
  simp only [mergeStep, doReset, hq, withQueue, hv, Option.bind_eq_bind, Option.bind_some, ne_eq, not_true_eq_false, if_true,
    if_false]
  rfl

theorem merges {op : MergeOp T} (h : Embodies n ch.toFifoChan a) (hv : ch.vOutlets = []) (hg : ch.toFifoChan.Guarded op.plain)
    (hp : a.Placed op.plain) : Merges b n ch a op := by
  have hw := h.guarded_iff.mp hg
  cases op with
  | write limit i t => exact merges_write h hg
  | entryStart entry k => exact merges_entryStart h hw hp
  | entryFinish k => exact merges_entryFinish h hv hw
  | outletStart k => exact merges_outletStart h hw
  | outletFinish k => exact merges_outletFinish h hw
  | doReset => exact merges_doReset (q := some a) b h hv

/-! ## Runs -/

/-- A reset, or an operation within the counts, with what it does to the queue; there is one from the first reset on. -/
def MergeStep (b : Build) (s s' : MultiplexFifoChan T ε × Option (AbsQueue T)) : Prop :=
  ∃ op : MergeOp T, s.1.mergeStep b op = some s'.1 ∧ (op = .doReset ∧ s'.2 = some (.initial s.1.initialTokens) ∨
    ∃ a ∈ s.2, s.1.toFifoChan.Guarded op.plain ∧ a.Placed op.plain ∧ s'.2 = some (a.merge s.1.initialTokens op))

omit [LawfulEvent ε] in
theorem MergeStep.reset {q : Option (AbsQueue T)} (hs : ch.mergeStep b .doReset = some ch') :
    MergeStep b (ch, q) (ch', some (.initial ch.initialTokens)) := ⟨.doReset, hs, .inl ⟨rfl, rfl⟩⟩

omit [LawfulEvent ε] in
theorem MergeStep.intro (op : MergeOp T) (hg : ch.toFifoChan.Guarded op.plain) (hp : a.Placed op.plain)
    (hs : ch.mergeStep b op = some ch') : MergeStep b (ch, some a) (ch', some (a.merge ch.initialTokens op)) :=
  ⟨op, hs, .inr ⟨a, rfl, hg, hp, rfl⟩⟩

/-- The channel is a FIFO that carries the queue. -/
structure Merged (n : Nat) (ch₁ ch : MultiplexFifoChan T ε) (q : Option (AbsQueue T)) : Prop where
  uses : Uses n ch.toFifoChan q
  plain : ch.vOutlets = []
  same : SameConfig ch₁.toFifoChan ch.toFifoChan
  all : ∀ a ∈ q, a.all = a.written

variable {ch₀ ch₁ : MultiplexFifoChan T ε} {q : Option (AbsQueue T)} {l : List T} {rs : List EventRequest}

theorem Merged.step {s' : MultiplexFifoChan T ε × Option (AbsQueue T)} (h : Merged n ch₁ ch q) (hs : MergeStep b (ch, q) s') :
    Merged n ch₁ s'.1 s'.2 := by
  obtain ⟨op, hop, ⟨rfl, hq⟩ | ⟨a, ha, hg, hp, hq⟩⟩ := hs
  · obtain ⟨ch', hch, hembodies, hv, hsame⟩ := merges_doReset b h.uses h.plain
    rw [hch, Option.some.injEq] at hop
    subst hop
    rw [hq]
    refine ⟨hembodies, hv.trans h.plain, h.same.trans hsame, fun a ha => ?_⟩
    obtain rfl := Option.mem_some_iff.mp ha
    simp [AbsQueue.all, AbsQueue.initial]
  · obtain rfl : q = some a := ha
    obtain ⟨ch', hch, hembodies, hv, hsame⟩ := merges (b := b) h.uses h.plain hg hp
    rw [hch, Option.some.injEq] at hop
    subst hop
    rw [hq]
    refine ⟨hembodies, hv.trans h.plain, h.same.trans hsame, fun a' ha' => ?_⟩
    obtain rfl := Option.mem_some_iff.mp ha'
    exact AbsQueue.all_merge (h.all a rfl)

theorem Merged.run {s : MultiplexFifoChan T ε × Option (AbsQueue T)} (h : Merged n ch₁ ch₁ none)
    (hr : Relation.ReflTransGen (MergeStep b) (ch₁, none) s) : Merged n ch₁ s.1 s.2 := by
  induction hr with
  | refl => exact h
  | tail _ hstep ih => exact ih.step hstep

omit [Token T] [ColorAccessor T] [LawfulEvent ε] in
theorem requests_toFifoChan : ∀ {ch : MultiplexFifoChan T ε}, rs.foldlM (request b) ch = some ch' →
    rs.foldlM (ChanKind.fifo.request b) ch.toFifoChan = some ch'.toFifoChan ∧ ch'.vOutlets = ch.vOutlets := by
  induction rs with
  | nil =>
    intro ch h
    cases h
    exact ⟨rfl, rfl⟩
  | cons r rs ih =>
    intro ch h
    rw [List.foldlM_cons] at h ⊢
    obtain ⟨ch₂, h₂, h⟩ := Option.bind_eq_some_iff.mp h
    obtain ⟨hrest, hv⟩ := ih h
    cases r with
    | data n | space n =>
      obtain ⟨em, hem, heq⟩ := Option.bind_eq_some_iff.mp h₂
      cases heq
      exact ⟨Option.bind_eq_some_iff.mpr ⟨_, Option.bind_eq_some_iff.mpr ⟨em, hem, rfl⟩, hrest⟩, hv⟩

omit [Token T] [ColorAccessor T] in
theorem merged_requests (hl : l.length ≤ n) (hnew : new b n m l [] = some ch₀) (hreq : rs.foldlM (request b) ch₀ = some ch₁) :
    Merged n ch₁ ch₁ none ∧ (∀ k, .data k ∈ rs → k ∈ ch₁.emmAvailable.thresholds) ∧
      ∀ k, .space k ∈ rs → k ∈ ch₁.emmFree.thresholds := by
  obtain ⟨_, _, heq⟩ := Option.bind_eq_some_iff.mp hnew
  obtain ⟨hreq, hv⟩ := requests_toFifoChan hreq
  cases heq
  obtain ⟨hunused, _, hdata, hspace⟩ := FifoChan.unused_requests hl hreq
  exact ⟨⟨hunused, hv, ⟨rfl, rfl, rfl⟩, by simp⟩, hdata, hspace⟩

/-- Whichever entries tokens come through, the one reader obtains them in the order of the commits, each with the
colour of its entry; none is lost, the events are as the counts say, and operations within the counts complete. -/
theorem single_reader (hl : l.length ≤ n) (hnew : new b n m l [] = some ch₀) (hreq : rs.foldlM (request b) ch₀ = some ch₁)
    (hr : Relation.ReflTransGen (MergeStep b) (ch₁, none) (ch, some a)) :
    a.released ++ a.consumed ++ a.visible ++ a.pipeline = a.written ∧
      MultiplexFifoOutlet.numAvailable ch = a.visible.length ∧
      (∀ limit i, i < a.visible.length → i < limit → MultiplexFifoOutlet.read b ch limit i = a.visible[i]?) ∧
      (∀ k, .data k ∈ rs → (ch.emmAvailable.isActiveAt k = true ↔ k ≤ a.visible.length)) ∧
      (∀ k, .space k ∈ rs → (ch.emmFree.isActiveAt k = true ↔ k ≤ a.room n)) ∧
      ∀ op : MergeOp T, ch.toFifoChan.Guarded op.plain → a.Placed op.plain → ∃ ch', ch.mergeStep b op = some ch' := by
  obtain ⟨h₁, hdata, hspace⟩ := merged_requests hl hnew hreq
  have h := h₁.run hr
  have hembodies : Embodies n ch.toFifoChan a := h.uses
  refine ⟨h.all a rfl, hembodies.serves.counted.areas.visibleCount_eq, fun limit i hi hlim => hembodies.read_eq hi hlim,
    fun k hk => hembodies.data_iff ?_, fun k hk => hembodies.space_iff ?_, fun op hg hp => ?_⟩
  · rw [h.same.data]
    exact hdata k hk
  · rw [h.same.space]
    exact hspace k hk
  · obtain ⟨ch', hch, _⟩ := merges (b := b) hembodies h.plain hg hp
    exact ⟨ch', hch⟩

theorem single_reader_commit : ∃ ch : MultiplexFifoChan (Nat × Int) Bool,
    (new .checked 2 0 [] [] >>= (·.request .checked (.data 1)) >>= (·.mergeStep .checked .doReset) >>=
      (·.mergeStep .checked (.write 1 0 (0, 5))) >>= (·.mergeStep .checked (.entryStart (some 1) 1)) >>=
        (·.mergeStep .checked (.entryFinish 1))) = some ch ∧
      MultiplexFifoOutlet.read .checked ch 1 0 = some (1, 5) ∧ ch.emmAvailable.isActiveAt 1 = true := by
  obtain ⟨ch₀, ch₁, ch₂, ch₃, ch₄, ch₅, hnew, hreq, hinit, hreset, hwrite, hstart, hfinish, hfree₂, hfree₃, hpipe⟩ :
      ∃ ch₀ ch₁ ch₂ ch₃ ch₄ ch₅ : MultiplexFifoChan (Nat × Int) Bool, new .checked 2 0 [] [] = some ch₀ ∧
        ch₀.request .checked (.data 1) = some ch₁ ∧ ch₁.initialTokens = [] ∧ ch₁.mergeStep .checked .doReset = some ch₂ ∧
        ch₂.mergeStep .checked (.write 1 0 (0, 5)) = some ch₃ ∧ ch₃.mergeStep .checked (.entryStart (some 1) 1) = some ch₄ ∧
        ch₄.mergeStep .checked (.entryFinish 1) = some ch₅ ∧ FifoEntry.numFree ch₂.toFifoChan = 2 ∧
        FifoEntry.numFree ch₃.toFifoChan = 2 ∧ ch₄.toFifoChan.pipelineCount = 1 :=
    ⟨_, _, _, _, _, _, rfl, rfl, rfl, rfl, rfl, rfl, rfl, rfl, rfl, rfl⟩
  have hplaced : ((AbsQueue.initial ch₁.initialTokens).merge ch₂.initialTokens (.write 1 0 ((0, 5) : Nat × Int))).Placed
      (.entryStart 1) := by
    intro i hi
    obtain rfl : i = 0 := by omega
    rfl
  have hg₂ : ch₂.toFifoChan.Guarded (.write 1 0 (0, 5)) := ⟨Nat.one_pos, by rw [hfree₂]; decide⟩
  have hg₃ : ch₃.toFifoChan.Guarded (.entryStart 1) := by
    rw [FifoChan.Guarded, hfree₃]
    decide
  have hg₄ : ch₄.toFifoChan.Guarded (.entryFinish 1 false) := by
    rw [FifoChan.Guarded, hpipe]
  have hrun := (((Relation.ReflTransGen.single (MergeStep.reset (q := none) hreset)).tail
    (MergeStep.intro (.write 1 0 (0, 5)) hg₂ trivial hwrite)).tail
    (MergeStep.intro (.entryStart (some 1) 1) hg₃ hplaced hstart)).tail (MergeStep.intro (.entryFinish 1) hg₄ trivial hfinish)
  have hreqs : [EventRequest.data 1].foldlM (request .checked) ch₀ = some ch₁ := by
    rw [List.foldlM_cons, hreq]
    rfl
  obtain ⟨_, _, hread, hdata, _⟩ := single_reader (l := []) (Nat.zero_le 2) hnew hreqs hrun
  rw [hinit] at hread hdata
  refine ⟨ch₅, ?_, hread 1 0 Nat.one_pos Nat.one_pos, (hdata 1 (List.mem_singleton.mpr rfl)).mpr (Nat.le_refl 1)⟩
  simp only [hnew, hreq, hreset, hwrite, hstart, hfinish, Option.bind_eq_bind, Option.bind_some]

end MultiplexFifoChan

end SysteMoC
