import Mathlib.Data.List.TakeWhile
import SysteMoC.Queue
import SysteMoC.Walk

/-!
# Threshold events

`EventMapManager` keeps one event for each requested threshold, in ascending
order. The event class itself lies outside the repository; `SmocEvent` names
what the code calls and `LawfulEvent` what it relies on.
-/

namespace SysteMoC

class SmocEvent (ε : Type) where
  new : Bool → ε
  isActive : ε → Bool
  notify : ε → ε
  reset : ε → ε
  renotifyListener : ε → ε

class LawfulEvent (ε : Type) [SmocEvent ε] : Prop where
  isActive_new : ∀ active : Bool, SmocEvent.isActive (SmocEvent.new active : ε) = active
  isActive_notify : ∀ e : ε, SmocEvent.isActive (SmocEvent.notify e) = true
  isActive_reset : ∀ e : ε, SmocEvent.isActive (SmocEvent.reset e) = false
  isActive_renotifyListener : ∀ e : ε, SmocEvent.isActive (SmocEvent.renotifyListener e) = SmocEvent.isActive e

instance : SmocEvent Bool where
  new := id
  isActive := id
  notify _ := true
  reset _ := false
  renotifyListener := id

instance : LawfulEvent Bool where
  isActive_new _ := rfl
  isActive_notify _ := rfl
  isActive_reset _ := rfl
  isActive_renotifyListener _ := rfl

open SmocEvent LawfulEvent

structure EventMapManager (ε : Type) where
  eventMap : List (Nat × ε)
  sorted : (eventMap.map Prod.fst).Pairwise (· < ·)

namespace EventMapManager

variable {ε : Type}

def empty : EventMapManager ε := ⟨[], List.Pairwise.nil⟩

/-- The entries before and from `upper_bound(count)` on. -/
def upTo (count : Nat) (m : List (Nat × ε)) : List (Nat × ε) := m.takeWhile (·.1 ≤ count)

def above (count : Nat) (m : List (Nat × ε)) : List (Nat × ε) := m.dropWhile (·.1 ≤ count)

/-- Replaces the events, not the thresholds. -/
def withEvents (em : EventMapManager ε) (m : List (Nat × ε)) (h : m.map Prod.fst = em.eventMap.map Prod.fst) :
    EventMapManager ε := ⟨m, h ▸ em.sorted⟩

def thresholds (em : EventMapManager ε) : List Nat := em.eventMap.map Prod.fst

theorem thresholds_withEvents (em : EventMapManager ε) (m : List (Nat × ε))
    (h : m.map Prod.fst = em.eventMap.map Prod.fst) : (em.withEvents m h).thresholds = em.thresholds := h

theorem upTo_append_above (count : Nat) (m : List (Nat × ε)) : upTo count m ++ above count m = m :=
  List.takeWhile_append_dropWhile

def onEvent (f : ε → ε) (p : Nat × ε) : Nat × ε := (p.1, f p.2)

theorem map_fst_onEvent (m : List (Nat × ε)) (f : Nat → ε → ε) :
    (m.map fun p => onEvent (f p.1) p).map Prod.fst = m.map Prod.fst := by
  rw [List.map_map]; rfl

theorem entries_sorted (em : EventMapManager ε) : em.eventMap.Pairwise fun p p' => p.1 < p'.1 :=
  List.pairwise_map.mp em.sorted

theorem mem_upTo {em : EventMapManager ε} {count : Nat} {p : Nat × ε} (h : p ∈ upTo count em.eventMap) : p.1 ≤ count := by
  simpa using List.mem_takeWhile_imp h

theorem lt_of_mem_above {em : EventMapManager ε} {count : Nat} {p : Nat × ε}
    (h : p ∈ above count em.eventMap) : count < p.1 := by
  have hs := em.entries_sorted
  rw [← upTo_append_above count em.eventMap] at hs
  have hs := (List.pairwise_append.mp hs).2.1
  cases hm : above count em.eventMap with
  | nil => rw [hm] at h; cases h
  | cons q m =>
    have hq : ¬ q.1 ≤ count := by
      have := List.head?_dropWhile_not (fun p : Nat × ε => decide (p.1 ≤ count)) em.eventMap
      rw [show em.eventMap.dropWhile _ = q :: m from hm] at this
      simpa using this
    rw [hm] at h hs
    rcases List.mem_cons.mp h with rfl | h
    · omega
    · have := (List.pairwise_cons.mp hs).1 p h
      omega

variable [SmocEvent ε]

/-- Walks down from `upper_bound(count)` and notifies up to the first active event. -/
def increasedCount (em : EventMapManager ε) (count : Nat) : EventMapManager ε :=
  em.withEvents
    ((Walk.mapUntil (fun p => isActive p.2) (onEvent notify) (upTo count em.eventMap).reverse).reverse ++
      above count em.eventMap)
    (by
      rw [List.map_append, List.map_reverse, Walk.map_mapUntil (onEvent notify) Prod.fst (fun _ => rfl),
        ← List.map_reverse, List.reverse_reverse, ← List.map_append, upTo_append_above])

/-- Walks up from `upper_bound(count)` and resets up to the first inactive event. -/
def decreasedCount (em : EventMapManager ε) (count : Nat) : EventMapManager ε :=
  em.withEvents
    (upTo count em.eventMap ++
      Walk.mapUntil (fun p => !isActive p.2) (onEvent SmocEvent.reset) (above count em.eventMap))
    (by
      rw [List.map_append, Walk.map_mapUntil (onEvent SmocEvent.reset) Prod.fst (fun _ => rfl), ← List.map_append,
        upTo_append_above])

def decreasedCountRenotify (em : EventMapManager ε) (count : Nat) : EventMapManager ε :=
  em.withEvents
    (em.eventMap.map fun p => onEvent (if p.1 ≤ count then renotifyListener else SmocEvent.reset) p)
    (map_fst_onEvent _ fun k => if k ≤ count then renotifyListener else SmocEvent.reset)

def reset (em : EventMapManager ε) : EventMapManager ε :=
  em.withEvents (em.eventMap.map fun p => onEvent SmocEvent.reset p) (map_fst_onEvent _ fun _ => SmocEvent.reset)

def insert (n : Nat) : List (Nat × ε) → List (Nat × ε)
  | [] => [(n, new false)]
  | p :: m => if n < p.1 then (n, new false) :: p :: m else if n = p.1 then p :: m else p :: insert n m

theorem mem_insert {n : Nat} {m : List (Nat × ε)} {p : Nat × ε} (h : p ∈ insert n m) :
    p ∈ m ∨ p = (n, new false) := by
  induction m with
  | nil => exact .inr (List.mem_singleton.mp h)
  | cons q m ih =>
    rw [insert] at h
    split at h
    · rcases List.mem_cons.mp h with h | h
      · exact .inr h
      · exact .inl h
    · split at h
      · exact .inl h
      · rcases List.mem_cons.mp h with h | h
        · exact .inl (h ▸ List.mem_cons_self)
        · rcases ih h with h | h
          · exact .inl (List.mem_cons_of_mem _ h)
          · exact .inr h

theorem mem_insert_fst {n k : Nat} {m : List (Nat × ε)} :
    k ∈ (insert n m).map Prod.fst ↔ k = n ∨ k ∈ m.map Prod.fst := by
  induction m with
  | nil => simp [insert]
  | cons q m ih =>
    rw [insert]
    split
    · simp
    · split
      · rename_i hn
        simp [hn]
      · rw [List.map_cons, List.mem_cons, ih, List.map_cons, List.mem_cons]
        exact or_left_comm

theorem insert_sorted {n : Nat} {m : List (Nat × ε)} (h : (m.map Prod.fst).Pairwise (· < ·)) :
    ((insert n m).map Prod.fst).Pairwise (· < ·) := by
  induction m with
  | nil => exact List.pairwise_singleton _ _
  | cons q m ih =>
    rw [List.map_cons, List.pairwise_cons] at h
    obtain ⟨hq, hm⟩ := h
    rw [insert]
    split
    · rename_i hn
      rw [List.map_cons, List.map_cons]
      refine List.pairwise_cons.mpr ⟨fun k hk => ?_, List.pairwise_cons.mpr ⟨hq, hm⟩⟩
      rcases List.mem_cons.mp hk with rfl | hk
      · exact hn
      · exact Nat.lt_trans hn (hq k hk)
    · split
      · exact List.pairwise_cons.mpr ⟨hq, hm⟩
      · rw [List.map_cons]
        refine List.pairwise_cons.mpr ⟨fun k hk => ?_, ih hm⟩
        obtain ⟨p, hp, rfl⟩ := List.mem_map.mp hk
        rcases mem_insert hp with hp | rfl
        · exact hq _ (List.mem_map_of_mem hp)
        · show q.1 < n
          omega

def getEvent (b : Build) (em : EventMapManager ε) (n : Nat) : Option (EventMapManager ε) := do
  b.assert (n ≠ 2 ^ 64 - 1)
  return ⟨insert n em.eventMap, insert_sorted em.sorted⟩

section
variable {em : EventMapManager ε} {count : Nat}

@[simp] theorem thresholds_increasedCount : (em.increasedCount count).thresholds = em.thresholds :=
  thresholds_withEvents em _ _

@[simp] theorem thresholds_decreasedCount : (em.decreasedCount count).thresholds = em.thresholds :=
  thresholds_withEvents em _ _

@[simp] theorem thresholds_decreasedCountRenotify :
    (em.decreasedCountRenotify count).thresholds = em.thresholds :=
  thresholds_withEvents em _ _

@[simp] theorem thresholds_reset : em.reset.thresholds = em.thresholds := thresholds_withEvents em _ _

theorem mem_thresholds_getEvent {b : Build} {n k : Nat} {em' : EventMapManager ε} (h : em.getEvent b n = some em') :
    k ∈ em'.thresholds ↔ k = n ∨ k ∈ em.thresholds := by
  simp only [getEvent, Option.bind_eq_bind, Option.bind_eq_some_iff] at h
  obtain ⟨_, _, heq⟩ := h
  cases heq
  exact mem_insert_fst

end

/-! ## What the events say -/

/-- The events of exactly the thresholds up to `count` are active. -/
def Tracks (em : EventMapManager ε) (count : Nat) : Prop :=
  ∀ p ∈ em.eventMap, isActive p.2 = decide (p.1 ≤ count)

/-- Active thresholds lie below all inactive ones. -/
def DownClosed (em : EventMapManager ε) : Prop :=
  em.eventMap.Pairwise fun p p' => isActive p'.2 = true → isActive p.2 = true

def Inactive (em : EventMapManager ε) : Prop := ∀ p ∈ em.eventMap, isActive p.2 = false

variable {em : EventMapManager ε} {count old : Nat}

theorem DownClosed.of_inactive (h : em.Inactive) : em.DownClosed := by
  apply List.pairwise_of_forall_mem_list
  intro p _ p' hp' ha
  rw [h p' hp'] at ha
  cases ha

theorem Tracks.downClosed (h : em.Tracks count) : em.DownClosed := by
  apply em.entries_sorted.imp_of_mem
  intro p p' hp hp' hlt ha
  rw [h p' hp'] at ha
  rw [h p hp]
  have := of_decide_eq_true ha
  exact decide_eq_true (by omega)

/-! ### What one walk does -/

theorem increasedCount_eventMap (h : em.DownClosed) :
    (em.increasedCount count).eventMap =
      em.eventMap.map fun p => if p.1 ≤ count ∧ isActive p.2 = false then onEvent notify p else p := by
  have hclosed : (upTo count em.eventMap).reverse.Pairwise fun p p' => isActive p.2 = true → isActive p'.2 = true := by
    have h' := h
    rw [DownClosed, ← upTo_append_above count em.eventMap] at h'
    exact List.pairwise_reverse.mpr (List.pairwise_append.mp h').1
  show (Walk.mapUntil _ _ _).reverse ++ _ = _
  rw [Walk.mapUntil_eq hclosed, List.map_reverse, List.reverse_reverse]
  conv_rhs => rw [← upTo_append_above count em.eventMap, List.map_append]
  congr 1
  · apply List.map_congr_left
    intro p hp
    by_cases ha : isActive p.2 = true
    · rw [if_pos ha, if_neg (by simp [ha])]
    · rw [if_neg ha, if_pos ⟨mem_upTo hp, by simpa using ha⟩]
  · conv_lhs => rw [← List.map_id (above count em.eventMap)]
    apply List.map_congr_left
    intro p hp
    have := lt_of_mem_above hp
    rw [if_neg (by omega)]
    rfl

theorem decreasedCount_eventMap (h : em.DownClosed) :
    (em.decreasedCount count).eventMap =
      em.eventMap.map fun p => if count < p.1 ∧ isActive p.2 = true then onEvent SmocEvent.reset p else p := by
  have hclosed : (above count em.eventMap).Pairwise fun p p' => (!isActive p.2) = true → (!isActive p'.2) = true := by
    have h' := h
    rw [DownClosed, ← upTo_append_above count em.eventMap] at h'
    apply (List.pairwise_append.mp h').2.1.imp
    intro p p' hp hn
    cases ha : isActive p'.2 with
    | false => rfl
    | true => rw [hp ha] at hn; cases hn
  show _ ++ Walk.mapUntil _ _ _ = _
  rw [Walk.mapUntil_eq hclosed]
  conv_rhs => rw [← upTo_append_above count em.eventMap, List.map_append]
  congr 1
  · conv_lhs => rw [← List.map_id (upTo count em.eventMap)]
    apply List.map_congr_left
    intro p hp
    have := mem_upTo hp
    rw [if_neg (by omega)]
    rfl
  · apply List.map_congr_left
    intro p hp
    cases ha : isActive p.2 with
    | false => simp
    | true => simp [lt_of_mem_above hp]

section
variable [LawfulEvent ε]

theorem tracks_increasedCount (h : em.DownClosed) (hle : ∀ p ∈ em.eventMap, isActive p.2 = true → p.1 ≤ count) :
    (em.increasedCount count).Tracks count := by
  intro p' hp'
  rw [increasedCount_eventMap h] at hp'
  obtain ⟨p, hp, rfl⟩ := List.mem_map.mp hp'
  cases ha : isActive p.2 with
  | true => simp [ha, hle p hp ha]
  | false =>
    by_cases hk : p.1 ≤ count
    · simp [hk, onEvent, isActive_notify]
    · simp [hk, ha]

theorem Tracks.increasedCount (h : em.Tracks old) (hle : old ≤ count) : (em.increasedCount count).Tracks count := by
  apply tracks_increasedCount h.downClosed
  intro p hp ha
  rw [h p hp] at ha
  exact Nat.le_trans (of_decide_eq_true ha) hle

theorem Inactive.increasedCount (h : em.Inactive) : (em.increasedCount count).Tracks count := by
  apply tracks_increasedCount (.of_inactive h)
  intro p hp ha
  rw [h p hp] at ha
  cases ha

theorem Tracks.decreasedCount (h : em.Tracks old) (hle : count ≤ old) : (em.decreasedCount count).Tracks count := by
  intro p' hp'
  rw [decreasedCount_eventMap h.downClosed] at hp'
  obtain ⟨p, hp, rfl⟩ := List.mem_map.mp hp'
  have ha := h p hp
  by_cases hk : p.1 ≤ count
  · rw [if_neg (by omega), ha]
    simp [hk, Nat.le_trans hk hle]
  · by_cases hold : p.1 ≤ old
    · rw [if_pos ⟨by omega, by rw [ha]; exact decide_eq_true hold⟩]
      simp [onEvent, isActive_reset, hk]
    · rw [if_neg (by simp [ha, hold]), ha]
      simp [hk, hold]

theorem Tracks.decreasedCountRenotify (h : em.Tracks old) (hle : count ≤ old) :
    (em.decreasedCountRenotify count).Tracks count := by
  intro p' hp'
  obtain ⟨p, hp, rfl⟩ := List.mem_map.mp hp'
  by_cases hk : p.1 ≤ count
  · simp [onEvent, hk, isActive_renotifyListener, h p hp, Nat.le_trans hk hle]
  · simp [onEvent, hk, isActive_reset]

theorem reset_inactive (em : EventMapManager ε) : em.reset.Inactive := by
  intro p' hp'
  obtain ⟨p, _, rfl⟩ := List.mem_map.mp hp'
  exact isActive_reset p.2

theorem Inactive.getEvent {b : Build} {n : Nat} {em' : EventMapManager ε} (h : em.Inactive)
    (hn : em.getEvent b n = some em') : em'.Inactive := by
  simp only [EventMapManager.getEvent, Option.bind_eq_bind, Option.bind_eq_some_iff] at hn
  obtain ⟨_, _, heq⟩ := hn
  cases heq
  intro p hp
  rcases mem_insert hp with hp | rfl
  · exact h p hp
  · exact isActive_new false

end

end EventMapManager

end SysteMoC
