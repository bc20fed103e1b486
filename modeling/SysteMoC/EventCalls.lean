import Mathlib.Data.List.Nodup
import SysteMoC.CachedChoice
import SysteMoC.Firing

/-!
# Threshold events one call after the other

The walks of `EventMapManager` and the operations of a channel as the calls of `notify`,
`reset` and `renotifyListener` they make, in their order.
-/

namespace SysteMoC

open CachedChoice (Call)
open SmocEvent LawfulEvent

deriving instance DecidableEq for EventRequest

namespace EventMapManager

variable {ε : Type} [SmocEvent ε]

def run : Call → ε → ε
  | .notify => notify
  | .reset => SmocEvent.reset
  | .renotify => renotifyListener

def call (em : EventMapManager ε) (c : Nat × Call) : EventMapManager ε :=
  em.withEvents (em.eventMap.map fun p => onEvent (if p.1 = c.1 then run c.2 else id) p)
    (map_fst_onEvent _ fun k => if k = c.1 then run c.2 else id)

def increasedCountCalls (em : EventMapManager ε) (count : Nat) : List (Nat × Call) :=
  (Walk.visited (fun p => isActive p.2) (upTo count em.eventMap).reverse).map fun p => (p.1, .notify)

def decreasedCountCalls (em : EventMapManager ε) (count : Nat) : List (Nat × Call) :=
  (Walk.visited (fun p => !isActive p.2) (above count em.eventMap)).map fun p => (p.1, .reset)

def decreasedCountRenotifyCalls (em : EventMapManager ε) (count : Nat) : List (Nat × Call) :=
  em.eventMap.map fun p => (p.1, if p.1 ≤ count then .renotify else .reset)

def resetCalls (em : EventMapManager ε) : List (Nat × Call) := em.eventMap.map fun p => (p.1, .reset)

end EventMapManager

end SysteMoC

namespace Walk

variable {α κ : Type} [DecidableEq κ] {stop : α → Bool} {f : α → α} {l : List α} {key : α → κ}

theorem visited_sublist : (visited stop l).Sublist l := by
  induction l with
  | nil => exact List.Sublist.refl []
  | cons a l ih =>
    rw [visited]
    split
    · exact List.nil_sublist _
    · exact ih.cons_cons a

theorem mapUntil_visited (h : (l.map key).Nodup) :
    mapUntil stop f l = l.map fun a => if key a ∈ (visited stop l).map key then f a else a := by
  induction l with
  | nil => rfl
  | cons a l ih =>
    obtain ⟨ha, hl⟩ := List.nodup_cons.mp h
    rw [mapUntil, visited, List.map_cons]
    split
    · simp
    · rw [ih hl, if_pos (by simp)]
      congr 1
      refine List.map_congr_left fun a' ha' => ?_
      have hne : key a' ≠ key a := by
        intro heq
        exact ha (heq ▸ List.mem_map_of_mem ha')
      simp [hne]

end Walk

namespace SysteMoC

open CachedChoice (Call)
open SmocEvent LawfulEvent

namespace EventMapManager

variable {ε : Type} [SmocEvent ε] {em em' : EventMapManager ε} {count n : Nat}

omit [SmocEvent ε] in
theorem ext_eventMap (h : em.eventMap = em'.eventMap) : em = em' := by
  cases em
  cases em'
  cases h
  rfl

omit [SmocEvent ε] in
theorem nodup_thresholds (em : EventMapManager ε) : (em.eventMap.map Prod.fst).Nodup :=
  em.sorted.imp Nat.ne_of_lt

omit [SmocEvent ε] in
theorem map_eventMap (count : Nat) (g : Nat × ε → Nat × ε) :
    em.eventMap.map g = (upTo count em.eventMap).map g ++ (above count em.eventMap).map g := by
  rw [← List.map_append, upTo_append_above]

theorem foldl_call {f : Nat → Call} {ks : List Nat} (h : ks.Nodup) : ∀ em : EventMapManager ε,
    ((ks.map fun k => (k, f k)).foldl call em).eventMap =
      em.eventMap.map fun p => if p.1 ∈ ks then onEvent (run (f p.1)) p else p := by
  induction ks with
  | nil =>
    intro em
    simp
  | cons k ks ih =>
    obtain ⟨hk, hks⟩ := List.nodup_cons.mp h
    intro em
    rw [List.map_cons, List.foldl_cons, ih hks]
    show (em.eventMap.map _).map _ = _
    rw [List.map_map]
    refine List.map_congr_left fun p _ => ?_
    by_cases hp : p.1 = k
    · simp [onEvent, hp, hk]
    · simp [onEvent, hp]

theorem foldl_increasedCountCalls : (em.increasedCountCalls count).foldl call em = em.increasedCount count := by
  have hnodup := em.nodup_thresholds
  rw [← upTo_append_above count em.eventMap, List.map_append, List.nodup_append'] at hnodup
  obtain ⟨hup, _, hdisj⟩ := hnodup
  have hrev : ((upTo count em.eventMap).reverse.map Prod.fst).Nodup := by
    rw [List.map_reverse]
    exact List.nodup_reverse.mpr hup
  let v := Walk.visited (fun p : Nat × ε => isActive p.2) (upTo count em.eventMap).reverse
  have hsub : ∀ k ∈ v.map Prod.fst, k ∈ (upTo count em.eventMap).map Prod.fst := by
    intro k hk
    have := (Walk.visited_sublist.map Prod.fst).subset hk
    rw [List.map_reverse] at this
    exact List.mem_reverse.mp this
  have hcalls : em.increasedCountCalls count = (v.map Prod.fst).map fun k => (k, Call.notify) := by
    rw [List.map_map]
    rfl
  apply ext_eventMap
  rw [hcalls, foldl_call ((Walk.visited_sublist.map Prod.fst).nodup hrev)]
  show _ = (Walk.mapUntil _ _ _).reverse ++ _
  rw [Walk.mapUntil_visited hrev, List.map_reverse, List.reverse_reverse, map_eventMap count]
  congr 1
  conv_rhs => rw [← List.map_id (above count em.eventMap)]
  refine List.map_congr_left fun p hp => ?_
  rw [if_neg fun hk => hdisj (hsub _ hk) (List.mem_map_of_mem hp)]
  rfl

theorem foldl_decreasedCountCalls : (em.decreasedCountCalls count).foldl call em = em.decreasedCount count := by
  have hnodup := em.nodup_thresholds
  rw [← upTo_append_above count em.eventMap, List.map_append, List.nodup_append'] at hnodup
  obtain ⟨_, hab, hdisj⟩ := hnodup
  let v := Walk.visited (fun p : Nat × ε => !isActive p.2) (above count em.eventMap)
  have hcalls : em.decreasedCountCalls count = (v.map Prod.fst).map fun k => (k, Call.reset) := by
    rw [List.map_map]
    rfl
  apply ext_eventMap
  rw [hcalls, foldl_call ((Walk.visited_sublist.map Prod.fst).nodup hab)]
  show _ = _ ++ Walk.mapUntil _ _ _
  rw [Walk.mapUntil_visited hab, map_eventMap count]
  congr 1
  conv_rhs => rw [← List.map_id (upTo count em.eventMap)]
  refine List.map_congr_left fun p hp => ?_
  rw [if_neg fun hk => hdisj (List.mem_map_of_mem hp) ((Walk.visited_sublist.map Prod.fst).subset hk)]
  rfl

theorem foldl_decreasedCountRenotifyCalls :
    (em.decreasedCountRenotifyCalls count).foldl call em = em.decreasedCountRenotify count := by
  have hcalls : em.decreasedCountRenotifyCalls count =
      (em.eventMap.map Prod.fst).map fun k => (k, if k ≤ count then Call.renotify else .reset) := by
    rw [List.map_map]
    rfl
  apply ext_eventMap
  rw [hcalls, foldl_call em.nodup_thresholds]
  refine List.map_congr_left fun p hp => ?_
  rw [if_pos (List.mem_map_of_mem hp)]
  split
  · rfl
  · rfl

theorem foldl_resetCalls : em.resetCalls.foldl call em = em.reset := by
  have hcalls : em.resetCalls = (em.eventMap.map Prod.fst).map fun k => (k, Call.reset) := by
    rw [List.map_map]
    rfl
  apply ext_eventMap
  rw [hcalls, foldl_call em.nodup_thresholds]
  exact List.map_congr_left fun p hp => if_pos (List.mem_map_of_mem hp)

/-! ### What a call does to the event of a threshold -/

omit [SmocEvent ε] in
theorem lookup_map_onEvent {f : Nat → ε → ε} {m : List (Nat × ε)} :
    (m.map fun p => onEvent (f p.1) p).lookup n = (m.lookup n).map (f n) := by
  induction m with
  | nil => rfl
  | cons p m ih =>
    obtain ⟨k, e⟩ := p
    rw [List.map_cons, onEvent, List.lookup_cons, List.lookup_cons, ih]
    cases hk : n == k with
    | true =>
      cases eq_of_beq hk
      rfl
    | false => rfl

theorem lookup_call {c : Nat × Call} :
    (em.call c).eventMap.lookup n = (em.eventMap.lookup n).map (if n = c.1 then run c.2 else id) :=
  lookup_map_onEvent (f := fun k => if k = c.1 then run c.2 else id)

theorem isActiveAt_call_of_ne {c : Nat × Call} (h : n ≠ c.1) : (em.call c).isActiveAt n = em.isActiveAt n := by
  rw [isActiveAt, lookup_call, if_neg h, Option.map_id]
  rfl

variable [LawfulEvent ε]

theorem isActiveAt_reset : (em.call (n, .reset)).isActiveAt n = false := by
  rw [isActiveAt, lookup_call, if_pos rfl]
  cases em.eventMap.lookup n with
  | none => rfl
  | some e => exact isActive_reset e

theorem isActiveAt_renotify : (em.call (n, .renotify)).isActiveAt n = em.isActiveAt n := by
  rw [isActiveAt, isActiveAt, lookup_call, if_pos rfl]
  cases em.eventMap.lookup n with
  | none => rfl
  | some e => exact isActive_renotifyListener e

theorem isActiveAt_notify (h : em.isActiveAt n = true) : (em.call (n, .notify)).isActiveAt n = true := by
  rw [isActiveAt] at h
  rw [isActiveAt, lookup_call, if_pos rfl]
  cases hl : em.eventMap.lookup n with
  | none =>
    rw [hl] at h
    cases h
  | some e => exact isActive_notify e

end EventMapManager

/-! ## Channels -/

namespace FifoChan

variable {T ε : Type}

def withEventsOf (ch' ch : FifoChan T ε) : FifoChan T ε := { ch' with emmData := ch.emmData, emmSpace := ch.emmSpace }

variable [SmocEvent ε]

def isActiveAt (ch : FifoChan T ε) : EventRequest → Bool
  | .data n => ch.emmData.isActiveAt n
  | .space n => ch.emmSpace.isActiveAt n

def call (ch : FifoChan T ε) : EventRequest × Call → FifoChan T ε
  | (.data n, c) => { ch with emmData := ch.emmData.call (n, c) }
  | (.space n, c) => { ch with emmSpace := ch.emmSpace.call (n, c) }

def dataCalls (cs : List (Nat × Call)) : List (EventRequest × Call) := cs.map fun c => (.data c.1, c.2)

def spaceCalls (cs : List (Nat × Call)) : List (EventRequest × Call) := cs.map fun c => (.space c.1, c.2)

theorem foldl_dataCalls {cs : List (Nat × Call)} : ∀ {ch : FifoChan T ε},
    (dataCalls cs).foldl call ch = { ch with emmData := cs.foldl EventMapManager.call ch.emmData } := by
  induction cs with
  | nil => exact fun {_} => rfl
  | cons c cs ih => exact fun {_} => ih

theorem foldl_spaceCalls {cs : List (Nat × Call)} : ∀ {ch : FifoChan T ε},
    (spaceCalls cs).foldl call ch = { ch with emmSpace := cs.foldl EventMapManager.call ch.emmSpace } := by
  induction cs with
  | nil => exact fun {_} => rfl
  | cons c cs ih => exact fun {_} => ih

end FifoChan

namespace ChanKind

open FifoChan

variable {T ε : Type} [SmocEvent ε]

def calls (kind : ChanKind) (ch ch' : FifoChan T ε) : FifoOp T → List (EventRequest × Call)
  | .write _ _ _ => []
  | .entryStart _ => spaceCalls (ch.emmSpace.decreasedCountCalls ch'.freeCount)
  | .entryFinish _ dropped =>
    match kind, dropped with
    | .fifo, true => spaceCalls (ch.emmSpace.increasedCountCalls ch'.freeCount)
    | _, _ => dataCalls (ch.emmData.increasedCountCalls ch'.visibleCount)
  | .outletStart _ =>
    match kind with
    | .fifo => dataCalls (ch.emmData.decreasedCountCalls ch'.visibleCount)
    | .multireader => dataCalls (ch.emmData.decreasedCountRenotifyCalls ch'.visibleCount)
  | .outletFinish _ => spaceCalls (ch.emmSpace.increasedCountCalls ch'.freeCount)
  | .doReset => spaceCalls ch.emmSpace.resetCalls ++ dataCalls ch.emmData.resetCalls ++
      spaceCalls (ch.emmSpace.reset.increasedCountCalls ch'.freeCount) ++
      dataCalls (ch.emmData.reset.increasedCountCalls ch'.visibleCount)

variable [Token T] {b : Build} {ch ch' : FifoChan T ε}

theorem plain_calls (op : FifoOp T) (h : ch.step b op = some ch') :
    (fifo.calls ch ch' op).foldl call (ch'.withEventsOf ch) = ch' := by
  cases op with
  | write limit i t =>
    obtain ⟨_, _, heq⟩ := Option.bind_eq_some_iff.mp h
    cases heq
    rfl
  | entryStart k =>
    obtain ⟨_, _, heq⟩ := Option.bind_eq_some_iff.mp h
    cases heq
    rw [calls, foldl_spaceCalls, withEventsOf, EventMapManager.foldl_decreasedCountCalls]
    rfl
  | entryFinish k dropped =>
    cases dropped with
    | false =>
      obtain ⟨_, _, heq⟩ := Option.bind_eq_some_iff.mp h
      cases heq
      rw [calls, foldl_dataCalls, withEventsOf, EventMapManager.foldl_increasedCountCalls]
      · rfl
      · exact fun _ h => Bool.noConfusion h
    | true =>
      obtain ⟨_, hw, heq⟩ := Option.bind_eq_some_iff.mp h
      obtain ⟨_, _, hq⟩ := Option.bind_eq_some_iff.mp hw
      cases hq
      cases heq
      rw [calls, foldl_spaceCalls, withEventsOf, EventMapManager.foldl_increasedCountCalls]
      rfl
  | outletStart k =>
    obtain ⟨_, _, heq⟩ := Option.bind_eq_some_iff.mp h
    cases heq
    rw [calls, foldl_dataCalls, withEventsOf, EventMapManager.foldl_decreasedCountCalls]
    rfl
  | outletFinish k =>
    rw [FifoChan.step, FifoOutlet.commFinish_eq] at h
    obtain ⟨_, _, heq⟩ := Option.bind_eq_some_iff.mp h
    cases heq
    rw [calls, foldl_spaceCalls, withEventsOf, EventMapManager.foldl_increasedCountCalls]
    rfl
  | doReset =>
    obtain ⟨_, _, heq⟩ := Option.bind_eq_some_iff.mp h
    cases heq
    rw [calls, List.foldl_append, List.foldl_append, List.foldl_append, foldl_spaceCalls, foldl_dataCalls,
      foldl_spaceCalls, foldl_dataCalls, withEventsOf, EventMapManager.foldl_resetCalls,
      EventMapManager.foldl_resetCalls, EventMapManager.foldl_increasedCountCalls,
      EventMapManager.foldl_increasedCountCalls]
    rfl

/-- An operation is the change of the queue followed by the calls. -/
theorem step_calls {kind : ChanKind} {op : FifoOp T} (h : kind.step b ch op = some ch') :
    (kind.calls ch ch' op).foldl call (ch'.withEventsOf ch) = ch' := by
  cases kind with
  | fifo => exact plain_calls op h
  | multireader =>
    cases op with
    | write limit i t => exact plain_calls (.write limit i t) h
    | entryStart k => exact plain_calls (.entryStart k) h
    | outletFinish k => exact plain_calls (.outletFinish k) h
    | doReset => exact plain_calls .doReset h
    | entryFinish k dropped =>
      obtain ⟨_, _, h⟩ := Option.bind_eq_some_iff.mp h
      exact plain_calls (.entryFinish k false) h
    | outletStart k =>
      obtain ⟨_, _, heq⟩ := Option.bind_eq_some_iff.mp h
      cases heq
      rw [calls, foldl_dataCalls, withEventsOf, EventMapManager.foldl_decreasedCountRenotifyCalls]
      rfl

theorem initialTokens_step {kind : ChanKind} {op : FifoOp T} (h : kind.step b ch op = some ch') :
    ch'.initialTokens = ch.initialTokens := by
  have hplain : ∀ op : FifoOp T, ch.step b op = some ch' → ch'.initialTokens = ch.initialTokens := by
    intro op h
    cases op with
    | entryFinish k dropped =>
      cases dropped with
      | false =>
        obtain ⟨_, _, heq⟩ := Option.bind_eq_some_iff.mp h
        cases heq
        rfl
      | true =>
        obtain ⟨_, hw, heq⟩ := Option.bind_eq_some_iff.mp h
        obtain ⟨_, _, hq⟩ := Option.bind_eq_some_iff.mp hw
        cases hq
        cases heq
        rfl
    | outletFinish k =>
      rw [FifoChan.step, FifoOutlet.commFinish_eq] at h
      obtain ⟨_, _, heq⟩ := Option.bind_eq_some_iff.mp h
      cases heq
      rfl
    | write | entryStart | outletStart | doReset =>
      obtain ⟨_, _, heq⟩ := Option.bind_eq_some_iff.mp h
      cases heq
      rfl
  cases kind with
  | fifo => exact hplain op h
  | multireader =>
    cases op with
    | write limit i t => exact hplain (.write limit i t) h
    | entryStart k => exact hplain (.entryStart k) h
    | outletFinish k => exact hplain (.outletFinish k) h
    | doReset => exact hplain .doReset h
    | entryFinish k dropped =>
      obtain ⟨_, _, h⟩ := Option.bind_eq_some_iff.mp h
      exact hplain (.entryFinish k false) h
    | outletStart k =>
      obtain ⟨_, _, heq⟩ := Option.bind_eq_some_iff.mp h
      cases heq
      rfl

end ChanKind

end SysteMoC
