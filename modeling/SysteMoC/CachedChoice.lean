import Mathlib.Data.Finset.Basic

/-!
# Cached choices

A party keeps the first of its options that is enabled: the option's events are all
active and its guard holds. Guards change at once, events one call after the other,
and each call signals the sets of events it changes. What is wrong with the choice
meanwhile is made up for by a signal that is still to come.
-/

namespace CachedChoice

inductive Call where
  | notify
  | reset
  | renotify
deriving DecidableEq

/-- The options of a party, in its order, with their events and guards. -/
structure Options (E T : Type) where
  list : List T
  events : T → Finset E
  guard : T → Bool

section
variable {E T : Type}

/-- All events of the set are active. -/
def Awake (active : E → Bool) (w : Finset E) : Prop := ∀ e ∈ w, active e = true

instance (active : E → Bool) (w : Finset E) : Decidable (Awake active w) := inferInstanceAs (Decidable (∀ e ∈ w, _))

def Options.enabled (o : Options E T) (active : E → Bool) (t : T) : Bool := decide (Awake active (o.events t)) && o.guard t

structure Made (c : E × Call) (active active' : E → Bool) : Prop where
  others : ∀ e ≠ c.1, active' e = active e
  notified : c.2 = .notify → active c.1 = true → active' c.1 = true
  reset : c.2 = .reset → active' c.1 = false
  renotified : c.2 = .renotify → active' c.1 = active c.1

/-- The sets a call signals: those it changes, and on a renotification those that are awake. -/
def Signalled (c : E × Call) (active active' : E → Bool) (w : Finset E) : Prop :=
  ¬ (Awake active w ↔ Awake active' w) ∨ c.2 = .renotify ∧ c.1 ∈ w ∧ Awake active' w

instance [DecidableEq E] (c : E × Call) (active active' : E → Bool) (w : Finset E) :
    Decidable (Signalled c active active' w) :=
  inferInstanceAs (Decidable (_ ∨ _))

/-- One of the events is still to be reset. -/
def Doomed (calls : List (E × Call)) (w : Finset E) : Prop := ∃ e ∈ w, (e, Call.reset) ∈ calls

instance [DecidableEq E] (calls : List (E × Call)) (w : Finset E) : Decidable (Doomed calls w) :=
  inferInstanceAs (Decidable (∃ e ∈ w, _))

/-- One of the events is still to be renotified, and none is reset before. -/
inductive Due (w : Finset E) : List (E × Call) → Prop where
  | now {e calls} (he : e ∈ w) : Due w ((e, .renotify) :: calls)
  | later {c calls} (hc : c.2 = .reset → c.1 ∉ w) (h : Due w calls) : Due w (c :: calls)

variable {o : Options E T} {active active' : E → Bool} {c : E × Call} {calls : List (E × Call)} {w : Finset E}
  {ct : Option T} {t : T}

theorem enabled_iff : o.enabled active t = true ↔ Awake active (o.events t) ∧ o.guard t = true := by
  simp [Options.enabled]

theorem Due.not_nil (h : Due w []) : False := by cases h

theorem not_doomed_nil : ¬ Doomed [] w := by
  rintro ⟨e, _, he⟩
  cases he

theorem Doomed.cons (h : Doomed calls w) : Doomed (c :: calls) w := by
  obtain ⟨e, he, hm⟩ := h
  exact ⟨e, he, List.mem_cons_of_mem _ hm⟩

theorem doomed_cons : Doomed (c :: calls) w ↔ c.2 = .reset ∧ c.1 ∈ w ∨ Doomed calls w := by
  constructor
  · rintro ⟨e, he, hm⟩
    rcases List.mem_cons.mp hm with rfl | hm
    · exact .inl ⟨rfl, he⟩
    · exact .inr ⟨e, he, hm⟩
  · rintro (⟨hc, he⟩ | h)
    · refine ⟨c.1, he, ?_⟩
      rw [← hc]
      exact List.mem_cons_self
    · exact h.cons

theorem due_of_mem {e : E} (he : e ∈ w) (hc : (e, Call.renotify) ∈ calls) (hd : ¬ Doomed calls w) : Due w calls := by
  induction calls with
  | nil => cases hc
  | cons c calls ih =>
    rw [doomed_cons, not_or] at hd
    rcases List.mem_cons.mp hc with rfl | hc
    · exact .now he
    · exact .later (fun hr hm => hd.1 ⟨hr, hm⟩) (ih hc hd.2)

theorem find?_eq_none_of {l : List T} {p q : T → Bool} (h : l.find? p = none) (hpq : ∀ t ∈ l, q t = true → p t = true) :
    l.find? q = none := by
  rw [List.find?_eq_none] at h ⊢
  exact fun t ht hq => h t ht (hpq t ht hq)

theorem find?_congr {l : List T} {p q : T → Bool} (h : ∀ t ∈ l, p t = q t) : l.find? p = l.find? q := by
  induction l with
  | nil => rfl
  | cons t l ih =>
    rw [List.find?_cons, List.find?_cons, h t List.mem_cons_self, ih fun t' ht' => h t' (List.mem_cons_of_mem _ ht')]

/-! ## What a call does to a set of events -/

namespace Made

theorem awake_of_notMem (h : Made c active active') (hc : c.1 ∉ w) : Awake active' w ↔ Awake active w := by
  have heq : ∀ e ∈ w, active' e = active e := by
    intro e he
    refine h.others e fun hec => hc ?_
    rw [← hec]
    exact he
  exact ⟨fun ha e he => (heq e he).symm.trans (ha e he), fun ha e he => (heq e he).trans (ha e he)⟩

theorem not_awake (h : Made c active active') (hr : c.2 = .reset) (hc : c.1 ∈ w) : ¬ Awake active' w := by
  intro ha
  have := ha c.1 hc
  rw [h.reset hr] at this
  cases this

theorem awake (h : Made c active active') (hr : c.2 ≠ .reset) (ha : Awake active w) : Awake active' w := by
  intro e he
  by_cases hec : e = c.1
  · subst hec
    cases hc : c.2 with
    | notify => exact h.notified hc (ha _ he)
    | reset => exact absurd hc hr
    | renotify => exact (h.renotified hc).trans (ha _ he)
  · exact (h.others e hec).trans (ha e he)

end Made

end

/-! ## The choice along the calls -/

section
variable {E T : Type} [DecidableEq E]

/-- The choice is made again, or it is the first option that will still be enabled. -/
inductive Coherent (o : Options E T) (active : E → Bool) (calls : List (E × Call)) (signals : Finset (Finset E))
    (ct : Option T) : Prop where
  | told (w : Finset E) (hw : w ∈ signals) (h : Awake active w)
  | due (t : T) (ht : t ∈ o.list) (h : Awake active (o.events t)) (hdue : Due (o.events t) calls)
  | warned (hct : ct.isSome) (w : Finset E) (hw : w ∈ signals) (h : ¬ Awake active w)
  | doomed (hct : ct.isSome) (t : T) (ht : t ∈ o.list) (h : Awake active (o.events t)) (hd : Doomed calls (o.events t))
  | right (h : ct = o.list.find? fun t => o.enabled active t && !decide (Doomed calls (o.events t)))

variable {o o' : Options E T} {active active' : E → Bool} {c : E × Call} {calls : List (E × Call)} {w : Finset E}
  {signals signals' : Finset (Finset E)} {ct : Option T}

/-- Where nothing is to come, the choice is right. -/
theorem Coherent.settled (h : Coherent o active [] ∅ ct) : ct = o.list.find? (o.enabled active) := by
  cases h with
  | told w hw | warned _ w hw => exact absurd hw (Finset.notMem_empty w)
  | due t _ _ hdue => exact hdue.not_nil.elim
  | doomed _ t _ _ hd => exact absurd hd not_doomed_nil
  | right h =>
    rw [h]
    exact find?_congr fun t _ => by simp [not_doomed_nil]

theorem coherent_searched : Coherent o active calls signals (o.list.find? (o.enabled active)) := by
  by_cases hd : ∃ t ∈ o.list, Awake active (o.events t) ∧ Doomed calls (o.events t)
  · obtain ⟨t, ht, ha, hd⟩ := hd
    cases hct : o.list.find? (o.enabled active) with
    | some t' => exact .doomed rfl t ht ha hd
    | none => exact .right (find?_eq_none_of hct fun t _ h => (Bool.and_eq_true_iff.mp h).1).symm
  · refine .right (find?_congr fun t ht => ?_)
    by_cases ha : Awake active (o.events t)
    · have hnot : ¬ Doomed calls (o.events t) := fun h => hd ⟨t, ht, ha, h⟩
      simp [hnot]
    · simp [Options.enabled, ha]

theorem Coherent.skipped (h : Coherent o active calls signals none) (hw : ¬ Awake active w) :
    Coherent o active calls (signals.erase w) none := by
  cases h with
  | told w' hw' ha =>
    refine .told w' (Finset.mem_erase.mpr ⟨?_, hw'⟩) ha
    rintro rfl
    exact hw ha
  | due t ht ha hdue => exact .due t ht ha hdue
  | warned hct | doomed hct => cases hct
  | right h => exact .right h

theorem Coherent.changed (h : ct = o.list.find? (o.enabled active)) (hlist : o'.list = o.list) (hevents : o'.events = o.events)
    (hguard : ∀ t ∈ o.list, Awake active (o.events t) → o'.guard t ≠ o.guard t →
      ∃ e ∈ o.events t, (e, Call.renotify) ∈ calls ∨ (e, Call.reset) ∈ calls) :
    Coherent o' active calls signals ct := by
  by_cases hdue : ∃ t ∈ o.list, Awake active (o.events t) ∧ Due (o.events t) calls
  · obtain ⟨t, ht, ha, hdue⟩ := hdue
    rw [← hlist] at ht
    rw [← hevents] at ha hdue
    exact .due t ht ha hdue
  -- without a renotification to come, a guard that changes belongs to an option that is doomed
  have hsame : ∀ t ∈ o.list, Awake active (o.events t) → ¬ Doomed calls (o.events t) → o'.guard t = o.guard t := by
    intro t ht ha hd
    by_contra hne
    obtain ⟨e, he, hc | hc⟩ := hguard t ht ha hne
    · exact hdue ⟨t, ht, ha, due_of_mem he hc hd⟩
    · exact hd ⟨e, he, hc⟩
  by_cases hd : ct.isSome ∧ ∃ t ∈ o.list, Awake active (o.events t) ∧ Doomed calls (o.events t)
  · obtain ⟨hct, t, ht, ha, hd⟩ := hd
    rw [← hlist] at ht
    rw [← hevents] at ha hd
    exact .doomed hct t ht ha hd
  refine .right ?_
  rw [hlist, hevents]
  cases hct : ct with
  | none =>
    rw [hct] at h
    refine (find?_eq_none_of h.symm fun t ht hq => ?_).symm
    obtain ⟨hen, hnot⟩ := Bool.and_eq_true_iff.mp hq
    rw [enabled_iff, hevents] at hen
    rw [enabled_iff, ← hsame t ht hen.1 (by simpa using hnot)]
    exact hen
  | some t' =>
    rw [← hct, h]
    refine find?_congr fun t ht => ?_
    by_cases ha : Awake active (o.events t)
    · have hnot : ¬ Doomed calls (o.events t) := fun h' => hd ⟨by rw [hct]; rfl, t, ht, ha, h'⟩
      simp only [Options.enabled, hevents, hsame t ht ha hnot, hnot, decide_false, Bool.not_false, Bool.and_true]
    · simp [Options.enabled, hevents, ha]

theorem Coherent.called (h : Coherent o active (c :: calls) ∅ ct) (hc : Made c active active')
    (hsig : ∀ t ∈ o.list, Signalled c active active' (o.events t) → o.events t ∈ signals) :
    Coherent o active' calls signals ct := by
  by_cases hchange : ∃ t ∈ o.list, ¬ Awake active (o.events t) ∧ Awake active' (o.events t)
  · obtain ⟨t, ht, ha, ha'⟩ := hchange
    exact .told _ (hsig t ht (.inl fun hiff => ha (hiff.mpr ha'))) ha'
  have hback : ∀ t ∈ o.list, Awake active' (o.events t) → Awake active (o.events t) := by
    intro t ht ha'
    by_contra ha
    exact hchange ⟨t, ht, ha, ha'⟩
  cases h with
  | told w hw | warned _ w hw => exact absurd hw (Finset.notMem_empty w)
  | due t ht ha hdue =>
    cases hdue with
    | now he =>
      have ha' := hc.awake (w := o.events t) Call.noConfusion ha
      exact .told _ (hsig t ht (.inr ⟨rfl, he, ha'⟩)) ha'
    | later hr hdue =>
      refine .due t ht ?_ hdue
      by_cases hreset : c.2 = .reset
      · exact (hc.awake_of_notMem (hr hreset)).mpr ha
      · exact hc.awake hreset ha
  | doomed hct t ht ha hd =>
    by_cases ha' : Awake active' (o.events t)
    · rcases doomed_cons.mp hd with ⟨hr, hm⟩ | hd
      · exact absurd ha' (hc.not_awake hr hm)
      · exact .doomed hct t ht ha' hd
    · exact .warned hct _ (hsig t ht (.inl fun hiff => ha' (hiff.mp ha))) ha'
  | right h =>
    refine .right (h.trans (find?_congr fun t ht => ?_))
    by_cases hreset : c.2 = .reset ∧ c.1 ∈ o.events t
    · have hd : Doomed (c :: calls) (o.events t) := doomed_cons.mpr (.inl hreset)
      have ha' := hc.not_awake hreset.1 hreset.2
      simp [Options.enabled, hd, ha']
    · have hd : Doomed (c :: calls) (o.events t) ↔ Doomed calls (o.events t) := by
        rw [doomed_cons, or_iff_right hreset]
      have ha : Awake active (o.events t) ↔ Awake active' (o.events t) := by
        refine ⟨fun ha => ?_, hback t ht⟩
        by_cases hm : c.1 ∈ o.events t
        · exact hc.awake (fun hr => hreset ⟨hr, hm⟩) ha
        · exact (hc.awake_of_notMem hm).mpr ha
      simp only [Options.enabled, hd, ha]

end

end CachedChoice
