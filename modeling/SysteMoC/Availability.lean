import SysteMoC.EventCalls
import SysteMoC.Multicast

/-!
# Events that promise no more than there is

What a channel's events say before its first reset and after: an active one is covered
by the counts. What an operation on a channel means for the tokens that can be read.
-/

namespace SysteMoC

open Cyclic
open CachedChoice (Call)
open SmocEvent LawfulEvent

namespace EventMapManager

variable {ε : Type} [SmocEvent ε] {em : EventMapManager ε} {count old n : Nat}

/-- Active thresholds lie below the inactive ones and do not exceed the count. -/
structure Within (em : EventMapManager ε) (count : Nat) : Prop where
  downClosed : em.DownClosed
  le : ∀ p ∈ em.eventMap, isActive p.2 = true → p.1 ≤ count

theorem Tracks.within (h : em.Tracks count) : em.Within count where
  downClosed := h.downClosed
  le := by
    intro p hp ha
    rw [h p hp] at ha
    exact of_decide_eq_true ha

theorem Inactive.within (h : em.Inactive) : em.Within count where
  downClosed := .of_inactive h
  le := by
    intro p hp ha
    rw [h p hp] at ha
    cases ha

theorem mem_of_isActiveAt (h : em.isActiveAt n = true) : ∃ e, (n, e) ∈ em.eventMap ∧ isActive e = true := by
  rw [isActiveAt, Option.any_eq_true] at h
  obtain ⟨e, he, ha⟩ := h
  obtain ⟨l₁, l₂, hl, _⟩ := List.lookup_eq_some_iff.mp he
  refine ⟨e, ?_, ha⟩
  rw [hl]
  simp

theorem Within.le_of_isActiveAt (h : em.Within count) (ha : em.isActiveAt n = true) : n ≤ count := by
  obtain ⟨e, he, ha⟩ := mem_of_isActiveAt ha
  exact h.le _ he ha

/-- What is active after a walk was active before it, and all that may be is. -/
theorem Within.of_map {em' : EventMapManager ε} {f : Nat × ε → Nat × ε} (h : em.Within old)
    (hmap : em'.eventMap = em.eventMap.map f) (hfst : ∀ p, (f p).1 = p.1)
    (hf : ∀ p ∈ em.eventMap, isActive (f p).2 = (isActive p.2 && decide (p.1 ≤ count))) : em'.Within count where
  downClosed := by
    rw [DownClosed, hmap, List.pairwise_map]
    refine (h.downClosed.and em.entries_sorted).imp_of_mem fun {p p'} hp hp' hpp ha => ?_
    rw [hf p' hp', Bool.and_eq_true, decide_eq_true_eq] at ha
    rw [hf p hp, Bool.and_eq_true, decide_eq_true_eq]
    exact ⟨hpp.1 ha.1, by have := hpp.2; omega⟩
  le := by
    intro p' hp' ha
    rw [hmap] at hp'
    obtain ⟨p, hp, rfl⟩ := List.mem_map.mp hp'
    rw [hf p hp, Bool.and_eq_true, decide_eq_true_eq] at ha
    rw [hfst]
    exact ha.2

variable [LawfulEvent ε]

theorem Within.increasedCount (h : em.Within old) (hle : old ≤ count) : (em.increasedCount count).Within count :=
  (tracks_increasedCount h.downClosed fun p hp ha => (h.le p hp ha).trans hle).within

theorem Within.decreasedCount (h : em.Within old) : (em.decreasedCount count).Within count := by
  refine h.of_map (decreasedCount_eventMap h.downClosed) (fun p => ?_) fun p _ => ?_
  · split
    · rfl
    · rfl
  · by_cases hlt : count < p.1
    · cases ha : isActive p.2 with
      | true => simp [hlt, onEvent, isActive_reset]
      | false => simp [hlt, ha]
    · simp [hlt, Nat.le_of_not_lt hlt]

theorem Within.decreasedCountRenotify (h : em.Within old) : (em.decreasedCountRenotify count).Within count := by
  refine h.of_map (f := fun p => onEvent (if p.1 ≤ count then renotifyListener else SmocEvent.reset) p) rfl
    (fun _ => rfl) fun p _ => ?_
  by_cases hle : p.1 ≤ count
  · simp [hle, onEvent, isActive_renotifyListener]
  · simp [hle, onEvent, isActive_reset]

end EventMapManager

namespace FifoOp

/-- An entry's commit is not dropped. -/
def Kept {T : Type} : FifoOp T → Prop
  | .entryFinish _ dropped => dropped = false
  | _ => True

theorem Kept.fits {T ε : Type} [Token T] {ch : FifoChan T ε} {op : FifoOp T} (h : op.Kept) : ch.Fits op :=
  FifoChan.fits_of_kept fun k hk => by
    subst hk
    cases h

end FifoOp

namespace FifoChan

variable {T ε : Type} [SmocEvent ε] {b : Build} {ch ch' : FifoChan T ε} {c v p k n limit : Nat}

/-- The areas, with room for the initial tokens, and events that promise no more. -/
structure Sound (ch : FifoChan T ε) (c v p : Nat) : Prop where
  areas : Areas ch.toQueueFRVWPtr c v p
  initial_lt : ch.initialTokens.length < ch.fsize
  data : ch.emmData.Within v
  space : ch.emmSpace.Within (ch.fsize - 1 - (c + v + p))

/-- Other slots than the first `n` free ones are as before. -/
structure Fills (n : Nat) (ch ch' : FifoChan T ε) : Prop where
  others : ch' = { ch with storage := ch'.storage }
  storage : ∀ x, (∀ i < n, x ≠ add ch.fsize ch.windex i) → ch'.storage x = ch.storage x

theorem Sound.visible_of_active (h : Sound ch c v p) (ha : ch.isActiveAt (.data n) = true) : n ≤ ch.visibleCount := by
  rw [h.areas.visibleCount_eq]
  exact h.data.le_of_isActiveAt ha

theorem Sound.free_of_active (h : Sound ch c v p) (ha : ch.isActiveAt (.space n) = true) : n ≤ ch.freeCount := by
  rw [h.areas.freeCount_eq]
  exact h.space.le_of_isActiveAt ha

namespace Fills

theorem sound (h : Fills n ch ch') (hs : Sound ch c v p) : Sound ch' c v p := by
  rw [h.others]
  exact ⟨hs.areas, hs.initial_lt, hs.data, hs.space⟩

omit [SmocEvent ε] in
/-- The tokens that can be read are in other slots. -/
theorem read_eq (h : Fills n ch ch') (ha : Areas ch.toQueueFRVWPtr c v p) (hn : n ≤ ch.freeCount) {i : Nat} (hi : i < v) :
    FifoOutlet.read b ch' limit i = FifoOutlet.read b ch limit i := by
  have hfits := ha.fits
  have hfree := ha.freeCount_eq
  have hother : ch'.storage (add ch.fsize ch.rindex i) = ch.storage (add ch.fsize ch.rindex i) := by
    refine h.storage _ fun j hj => ?_
    rw [ha.windex_rindex, add_add]
    intro heq
    have := (add_inj ha.rindex_lt (by omega) (by omega)).mp heq
    omega
  rw [h.others]
  simp only [FifoOutlet.read, ringRead, ringSlot_eq ha.rindex_lt (show i ≤ ch.fsize by omega), hother]

end Fills

/-! ### Operations -/

/-- A channel without its events. -/
def bare (ch : FifoChan T ε) : FifoChan T ε := { ch with emmData := .empty, emmSpace := .empty }

theorem counted_bare (h : Areas ch.toQueueFRVWPtr c v p) (hi : ch.initialTokens.length < ch.fsize) :
    Counted (ch.fsize - 1) ch.bare c v p where
  areas := h
  fsize_eq := by
    have := h.fsize_pos
    show ch.fsize = _
    omega
  initial_le := by
    show ch.initialTokens.length ≤ _
    omega
  data := by
    intro _ hp
    cases hp
  space := by
    intro _ hp
    cases hp

theorem step_bare [Token T] {op : FifoOp T} (h : ch.step b op = some ch') : ch.bare.step b op = some ch'.bare := by
  cases op with
  | write limit i t =>
    obtain ⟨st, hst, heq⟩ := Option.bind_eq_some_iff.mp h
    cases heq
    simp only [FifoChan.step, FifoEntry.write, bare, hst, Option.bind_eq_bind, Option.bind_some]
    rfl
  | entryStart k =>
    obtain ⟨q, hq, heq⟩ := Option.bind_eq_some_iff.mp h
    cases heq
    simp only [FifoChan.step, FifoEntry.commStart, bare, hq, Option.bind_eq_bind, Option.bind_some]
    rfl
  | entryFinish k dropped =>
    cases dropped with
    | false =>
      obtain ⟨q, hq, heq⟩ := Option.bind_eq_some_iff.mp h
      cases heq
      simp only [FifoChan.step, FifoEntry.commFinish, latencyExpired, bare, hq, Bool.not_false, if_true, Option.bind_eq_bind,
        Option.bind_some]
      rfl
    | true =>
      obtain ⟨_, hw, heq⟩ := Option.bind_eq_some_iff.mp h
      obtain ⟨q, hq, hw⟩ := Option.bind_eq_some_iff.mp hw
      cases hw
      cases heq
      simp only [FifoChan.step, FifoEntry.commFinish, latencyExpired_dropped, invalidateToken, bare, hq, Bool.not_true,
        Bool.false_eq_true, if_false, Option.bind_eq_bind, Option.bind_some]
      rfl
  | outletStart k =>
    obtain ⟨q, hq, heq⟩ := Option.bind_eq_some_iff.mp h
    cases heq
    simp only [FifoChan.step, FifoOutlet.commStart, bare, hq, Option.bind_eq_bind, Option.bind_some]
    rfl
  | outletFinish k =>
    rw [FifoChan.step, FifoOutlet.commFinish_eq] at h
    obtain ⟨q, hq, heq⟩ := Option.bind_eq_some_iff.mp h
    cases heq
    rw [FifoChan.step, FifoOutlet.commFinish_eq]
    simp only [readConsumeEventExpired, bare, hq, Option.bind_eq_bind, Option.bind_some]
    rfl
  | doReset =>
    obtain ⟨q, hq, heq⟩ := Option.bind_eq_some_iff.mp h
    cases heq
    simp only [FifoChan.step, doReset, bare, hq, Option.bind_eq_bind, Option.bind_some]
    rfl

end FifoChan

namespace ChanKind

open FifoChan

variable {T ε : Type} [Token T] [SmocEvent ε] [LawfulEvent ε] {kind : ChanKind} {b : Build} {ch ch' : FifoChan T ε}
  {c v p limit : Nat} {op : FifoOp T}

/-- What an operation does to the indices does not depend on the events. -/
theorem areas_step (h : Areas ch.toQueueFRVWPtr c v p) (hi : ch.initialTokens.length < ch.fsize) (hop : op.Kept)
    (hg : ch.Guarded op) (hs : kind.step b ch op = some ch') :
    ∃ c' v' p', (c', v', p') = areasAfter ch.initialTokens.length c v p op ∧ Areas ch'.toQueueFRVWPtr c' v' p' ∧
      ch'.fsize = ch.fsize ∧ ch'.initialTokens = ch.initialTokens := by
  have hplain : ∀ op : FifoOp T, op.Kept → ch.Guarded op → ch.step b op = some ch' →
      ∃ c' v' p', (c', v', p') = areasAfter ch.initialTokens.length c v p op ∧ Areas ch'.toQueueFRVWPtr c' v' p' ∧
        ch'.fsize = ch.fsize ∧ ch'.initialTokens = ch.initialTokens := by
    intro op hop hg hs
    obtain ⟨c', v', p', heq, hc, hsame⟩ := (counted_bare h hi).step hg hop.fits (step_bare hs)
    refine ⟨c', v', p', heq, hc.areas, ?_, hsame.initialTokens⟩
    have := hc.fsize_eq
    have hpos := h.fsize_pos
    show ch'.bare.fsize = _
    omega
  cases kind with
  | fifo => exact hplain op hop hg hs
  | multireader =>
    cases op with
    | write limit i t => exact hplain (.write limit i t) hop hg hs
    | entryStart k => exact hplain (.entryStart k) hop hg hs
    | outletFinish k => exact hplain (.outletFinish k) hop hg hs
    | doReset => exact hplain .doReset hop hg hs
    | entryFinish k dropped =>
      cases hop
      obtain ⟨_, _, hs⟩ := Option.bind_eq_some_iff.mp hs
      exact hplain (.entryFinish k false) rfl hg hs
    | outletStart k =>
      have hk : k ≤ v := by rw [← h.visibleCount_eq]; exact hg
      obtain ⟨q, hbase, heq⟩ := Option.bind_eq_some_iff.mp hs
      cases heq
      rw [h.rpp_eq hk] at hbase
      cases hbase
      exact ⟨c + k, v - k, p, rfl, h.rpp hk, rfl, rfl⟩

/-- The events after an operation that leaves `count` tokens, or free places. -/
def dataEvents (kind : ChanKind) (em : EventMapManager ε) (count : Nat) : FifoOp T → EventMapManager ε
  | .entryFinish _ _ => em.increasedCount count
  | .outletStart _ =>
    match kind with
    | .fifo => em.decreasedCount count
    | .multireader => em.decreasedCountRenotify count
  | .doReset => em.reset.increasedCount count
  | _ => em

def spaceEvents (em : EventMapManager ε) (count : Nat) : FifoOp T → EventMapManager ε
  | .entryStart _ => em.decreasedCount count
  | .outletFinish _ => em.increasedCount count
  | .doReset => em.reset.increasedCount count
  | _ => em

omit [LawfulEvent ε] in
theorem events_step (hop : op.Kept) (hs : kind.step b ch op = some ch') :
    ch'.emmData = dataEvents kind ch.emmData ch'.visibleCount op ∧ ch'.emmSpace = spaceEvents ch.emmSpace ch'.freeCount op := by
  have hplain : ∀ op : FifoOp T, op.Kept → ch.step b op = some ch' →
      ch'.emmData = dataEvents .fifo ch.emmData ch'.visibleCount op ∧
        ch'.emmSpace = spaceEvents ch.emmSpace ch'.freeCount op := by
    intro op hop hs
    cases op with
    | write | entryStart | outletStart | doReset =>
      obtain ⟨_, _, heq⟩ := Option.bind_eq_some_iff.mp hs
      cases heq
      exact ⟨rfl, rfl⟩
    | entryFinish k dropped =>
      cases hop
      obtain ⟨_, _, heq⟩ := Option.bind_eq_some_iff.mp hs
      cases heq
      exact ⟨rfl, rfl⟩
    | outletFinish k =>
      rw [FifoChan.step, FifoOutlet.commFinish_eq] at hs
      obtain ⟨_, _, heq⟩ := Option.bind_eq_some_iff.mp hs
      cases heq
      exact ⟨rfl, rfl⟩
  cases kind with
  | fifo => exact hplain op hop hs
  | multireader =>
    cases op with
    | write limit i t => exact hplain (.write limit i t) hop hs
    | entryStart k => exact hplain (.entryStart k) hop hs
    | outletFinish k => exact hplain (.outletFinish k) hop hs
    | doReset => exact hplain .doReset hop hs
    | entryFinish k dropped =>
      cases hop
      obtain ⟨_, _, hs⟩ := Option.bind_eq_some_iff.mp hs
      exact hplain (.entryFinish k false) rfl hs
    | outletStart k =>
      obtain ⟨_, _, heq⟩ := Option.bind_eq_some_iff.mp hs
      cases heq
      exact ⟨rfl, rfl⟩

/-- An operation within the counts leaves events that promise no more than there is. -/
theorem sound_step (h : Sound ch c v p) (hop : op.Kept) (hg : ch.Guarded op) (hs : kind.step b ch op = some ch') :
    ∃ c' v' p', (c', v', p') = areasAfter ch.initialTokens.length c v p op ∧ Sound ch' c' v' p' ∧
      ch'.fsize = ch.fsize ∧ ch'.initialTokens = ch.initialTokens := by
  obtain ⟨c', v', p', heq, ha, hsize, hinit⟩ := areas_step h.areas h.initial_lt hop hg hs
  obtain ⟨hdata, hspace⟩ := events_step hop hs
  rw [ha.visibleCount_eq] at hdata
  rw [ha.freeCount_eq, hsize] at hspace
  have hlt : ch'.initialTokens.length < ch'.fsize := by rw [hinit, hsize]; exact h.initial_lt
  refine ⟨c', v', p', heq, ⟨ha, hlt, ?_, ?_⟩, hsize, hinit⟩
  · rw [hdata]
    cases op with
    | write | entryStart | outletFinish =>
      cases heq
      exact h.data
    | entryFinish k dropped =>
      cases hop
      cases heq
      exact h.data.increasedCount (Nat.le_add_right v k)
    | outletStart k =>
      cases kind with
      | fifo => exact h.data.decreasedCount
      | multireader => exact h.data.decreasedCountRenotify
    | doReset => exact (EventMapManager.reset_inactive _).increasedCount.within
  · rw [hspace, hsize]
    cases op with
    | write =>
      cases heq
      exact h.space
    | entryStart k => exact h.space.decreasedCount
    | entryFinish k dropped =>
      cases hop
      have hk : k ≤ p := by rw [← h.areas.pipeline_eq]; exact hg
      cases heq
      rw [show c + (v + k) + (p - k) = c + v + p by omega]
      exact h.space
    | outletStart k =>
      have hk : k ≤ v := by rw [← h.areas.visibleCount_eq]; exact hg
      cases heq
      rw [show c + k + (v - k) + p = c + v + p by omega]
      exact h.space
    | outletFinish k =>
      cases heq
      exact h.space.increasedCount (by omega)
    | doReset => exact (EventMapManager.reset_inactive _).increasedCount.within

omit [Token T] in
theorem inactive_requests {rs : List EventRequest} : ∀ {ch : FifoChan T ε}, rs.foldlM (kind.request b) ch = some ch' →
    ch.emmData.Inactive → ch.emmSpace.Inactive → ch'.emmData.Inactive ∧ ch'.emmSpace.Inactive := by
  induction rs with
  | nil =>
    intro ch h hd hs
    cases h
    exact ⟨hd, hs⟩
  | cons r rs ih =>
    intro ch h hd hs
    rw [List.foldlM_cons] at h
    obtain ⟨ch₁, h₁, h⟩ := Option.bind_eq_some_iff.mp h
    replace h₁ := request_plain h₁
    cases r with
    | data n =>
      obtain ⟨em, hem, heq⟩ := Option.bind_eq_some_iff.mp h₁
      cases heq
      exact ih h (hd.getEvent hem) hs
    | space n =>
      obtain ⟨em, hem, heq⟩ := Option.bind_eq_some_iff.mp h₁
      cases heq
      exact ih h hd (hs.getEvent hem)

omit [Token T] in
theorem sound_requests {n : Nat} {l : List T} {rs : List EventRequest} (hl : l.length ≤ n)
    (h : rs.foldlM (kind.request b) (.new n l : FifoChan T ε) = some ch) : Sound ch 0 0 0 := by
  obtain ⟨hq, hi, _⟩ := requests_queue (requests_plain h)
  obtain ⟨hdata, hspace⟩ := inactive_requests h (by intro _ hp; cases hp) (by intro _ hp; cases hp)
  refine ⟨?_, ?_, hdata.within, hspace.within⟩
  · rw [hq]
    exact areas_new n l
  · rw [hq, hi]
    exact Nat.lt_succ_of_le hl

/-! ### What readers see -/

omit [Token T] [SmocEvent ε] [LawfulEvent ε] in
theorem fills_write {n i : Nat} {t : T} (h : Areas ch.toQueueFRVWPtr c v p) (hi : i < n) (hn : n ≤ ch.freeCount)
    (hs : FifoEntry.write b ch limit i t = some ch') : Fills n ch ch' := by
  obtain ⟨st, hst, heq⟩ := Option.bind_eq_some_iff.mp hs
  obtain ⟨_, _, hput⟩ := Option.bind_eq_some_iff.mp hst
  have hfits := h.fits
  have hfree := h.freeCount_eq
  cases hput
  cases heq
  refine ⟨rfl, fun x hx => ?_⟩
  rw [ringSlot_eq h.windex_lt (by omega)]
  exact Function.update_of_ne (hx i hi) _ _

omit [LawfulEvent ε] in
/-- Tokens that can be read stay, unless they are consumed or the channel is reset. -/
theorem read_step (h : Areas ch.toQueueFRVWPtr c v p) (hop : op.Kept) (hstart : ∀ k, op ≠ .outletStart k) (hreset : op ≠ .doReset)
    (hg : ch.Guarded op) (hs : kind.step b ch op = some ch') {i : Nat} (hi : i < v) :
    FifoOutlet.read b ch' limit i = FifoOutlet.read b ch limit i := by
  have hfinish : ∀ k, ch.Guarded (.entryFinish k false : FifoOp T) → ch.latencyExpired b k = some ch' →
      FifoOutlet.read b ch' limit i = FifoOutlet.read b ch limit i := by
    intro k hg hs
    have hk : k ≤ p := by rw [← h.pipeline_eq]; exact hg
    obtain ⟨q, hq, heq⟩ := Option.bind_eq_some_iff.mp hs
    obtain ⟨base, hbase, hq⟩ := Option.bind_eq_some_iff.mp hq
    rw [h.vpp_eq hk] at hbase
    cases hbase
    cases hq
    cases heq
    rfl
  cases op with
  | write l j t =>
    have hs : FifoEntry.write b ch l j t = some ch' := by
      cases kind with
      | fifo | multireader => exact hs
    exact (fills_write h hg.2 (Nat.le_refl _) hs).read_eq h (Nat.le_refl _) hi
  | entryStart k =>
    have hs : FifoEntry.commStart b ch k = some ch' := by
      cases kind with
      | fifo | multireader => exact hs
    obtain ⟨q, hq, heq⟩ := Option.bind_eq_some_iff.mp hs
    obtain ⟨base, hbase, hq⟩ := Option.bind_eq_some_iff.mp hq
    rw [h.wpp_eq hg] at hbase
    cases hbase
    cases hq
    cases heq
    rfl
  | entryFinish k dropped =>
    cases hop
    cases kind with
    | fifo => exact hfinish k hg hs
    | multireader =>
      obtain ⟨_, _, hs⟩ := Option.bind_eq_some_iff.mp hs
      exact hfinish k hg hs
  | outletStart k => exact absurd rfl (hstart k)
  | outletFinish k =>
    have hk : k ≤ c := by rw [← h.inConsume_eq]; exact hg
    have hs : FifoOutlet.commFinish b ch k false = some ch' := by
      cases kind with
      | fifo | multireader => exact hs
    rw [FifoOutlet.commFinish_eq] at hs
    obtain ⟨q, hq, heq⟩ := Option.bind_eq_some_iff.mp hs
    obtain ⟨base, hbase, hq⟩ := Option.bind_eq_some_iff.mp hq
    rw [h.fpp_eq hk] at hbase
    cases hbase
    cases hq
    cases heq
    rfl
  | doReset => exact absurd rfl hreset

omit [Token T] [LawfulEvent ε] in
/-- Where readable tokens change, each active data event is called. -/
theorem covered {n : Nat} (hop : op = .doReset ∨ kind = .multireader ∧ ∃ k, op = .outletStart k)
    (ha : ch.isActiveAt (.data n) = true) :
    (.data n, Call.renotify) ∈ kind.calls ch ch' op ∨ (.data n, Call.reset) ∈ kind.calls ch ch' op := by
  obtain ⟨e, he, _⟩ := EventMapManager.mem_of_isActiveAt ha
  rcases hop with rfl | ⟨rfl, k, rfl⟩
  · right
    simp only [calls, List.mem_append, dataCalls, List.mem_map]
    exact .inl (.inl (.inr ⟨(n, .reset), List.mem_map.mpr ⟨(n, e), he, rfl⟩, rfl⟩))
  · by_cases hle : n ≤ ch'.visibleCount
    · left
      refine List.mem_map.mpr ⟨(n, .renotify), List.mem_map.mpr ⟨(n, e), he, ?_⟩, rfl⟩
      rw [if_pos hle]
    · right
      refine List.mem_map.mpr ⟨(n, .reset), List.mem_map.mpr ⟨(n, e), he, ?_⟩, rfl⟩
      rw [if_neg hle]

end ChanKind

/-! ### Copies -/

namespace FifoChan

variable {T ε : Type} {b : Build} {head' ch ch' ch'' : FifoChan T ε} {n limit : Nat}

theorem Fills.refl (n : Nat) (ch : FifoChan T ε) : Fills n ch ch := ⟨rfl, fun _ _ => rfl⟩

theorem Fills.trans (h : Fills n ch ch') (h' : Fills n ch' ch'') : Fills n ch ch'' := by
  obtain ⟨ho, hs⟩ := h
  obtain ⟨ho', hs'⟩ := h'
  refine ⟨?_, fun x hx => ?_⟩
  · rw [ho', ho]
  · have hw : ch'.fsize = ch.fsize ∧ ch'.windex = ch.windex := by
      rw [ho]
      exact ⟨rfl, rfl⟩
    rw [hs' x (by rw [hw.1, hw.2]; exact hx), hs x hx]

theorem Fills.queue (h : Fills n ch ch') : ch'.toQueueFRVWPtr = ch.toQueueFRVWPtr := by
  rw [h.others]

theorem fills_get [Token T] {c v p i : Nat} {t : T} {st : Storage T} (h : Areas ch.toQueueFRVWPtr c v p) (hi : i < n)
    (hn : n ≤ ch.freeCount) (hs : ch.storage.get (ringSlot ch.fsize ch.windex i) = some (t, st)) :
    Fills n ch { ch with storage := st } := by
  have hfits := h.fits
  have hfree := h.freeCount_eq
  refine ⟨rfl, fun x hx => ?_⟩
  rw [ringSlot_eq h.windex_lt (by omega), Storage.get] at hs
  split at hs
  · cases hs
    rfl
  · obtain ⟨_, _, heq⟩ := Option.map_eq_some_iff.mp hs
    cases heq
    exact Function.update_of_ne (hx i hi) _ _

/-- Copying touches free slots only. -/
theorem copyTokens_fills [Token T] {c v p c' v' p' : Nat} {k : Nat} : ∀ {i : Nat} {head ch : FifoChan T ε},
    Areas head.toQueueFRVWPtr c v p → Areas ch.toQueueFRVWPtr c' v' p' → i + k ≤ n → n ≤ head.freeCount → n ≤ ch.freeCount →
    copyTokens b limit i k head ch = some (head', ch') → Fills n head head' ∧ Fills n ch ch' := by
  induction k with
  | zero =>
    intro i head ch _ _ _ _ _ h
    cases h
    exact ⟨.refl n _, .refl n _⟩
  | succ k ih =>
    intro i head ch hhead hch hi hfree hfree' h
    obtain ⟨_, _, h⟩ := Option.bind_eq_some_iff.mp h
    obtain ⟨⟨t, st⟩, hget, h⟩ := Option.bind_eq_some_iff.mp h
    obtain ⟨ch₁, hwrite, h⟩ := Option.bind_eq_some_iff.mp h
    have h₁ := fills_get hhead (show i < n by omega) hfree hget
    have h₂ := ChanKind.fills_write hch (show i < n by omega) hfree' hwrite
    have hq := h₂.queue
    have hhead₁ : Areas ({ head with storage := st } : FifoChan T ε).toQueueFRVWPtr c v p := hhead
    obtain ⟨h₃, h₄⟩ := ih hhead₁ (by rw [hq]; exact hch) (by omega) hfree (by rw [hq]; exact hfree') h
    exact ⟨h₁.trans h₃, h₂.trans h₄⟩

end FifoChan

end SysteMoC
