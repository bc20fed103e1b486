import SysteMoC.NetworkSound

/-!
# Guards and the tokens they read

A guard is evaluated where the events of its transition are active. Their counts are
there as long as none of these events is only waiting for its reset.
-/

namespace SysteMoC

open CachedChoice (Call Awake)

namespace NetState

variable {A K Z Q T V D : Type} [DecidableEq K] {s : NetState A K Z Q T V D}

/-- The events once the calls that are left are made. -/
def lastActive (s : NetState A K Z Q T V D) : NetEvent K Z → Bool
  | .chan k e => (s.settled k).isActiveAt e
  | .sae z => s.sae z

theorem lastActive_of_nil (h : s.calls = []) : s.lastActive = s.isActive := by
  funext e
  cases e with
  | chan k e => simp only [lastActive, isActive, settled_of_nil h]
  | sae z => rfl

theorem settled_queue {k : K} : (s.settled k).toQueueFRVWPtr = (s.chans k).toQueueFRVWPtr := by
  unfold settled
  generalize s.chans = chans
  induction s.calls generalizing chans with
  | nil => rfl
  | cons c calls ih =>
    have hsame : (callChans chans c k).withEventsOf (chans k) = chans k := Network.withEventsOf_callChans
    have hqueue := congrArg (fun ch : FifoChan D Bool => ch.toQueueFRVWPtr) hsame
    exact (ih _).trans hqueue

end NetState

namespace Network

variable {A K Z Q T V D : Type} [DecidableEq A] [DecidableEq K] [DecidableEq Z] {net : Network A K Z Q T V D} {b : Build}
  {s s' : Simulation A K Z Q T V D} {a : A} {t : T}

/-- The input patterns of the rule have their tokens, the output patterns their free places. -/
def Covers (net : Network A K Z Q T V D) (chans : K → FifoChan D Bool) (a : A) (t : T) : Prop :=
  (∀ info ∈ (net.rule a t).portInInfos, info.required ≤ FifoOutlet.numAvailable (chans info.port)) ∧
    ∀ info ∈ (net.rule a t).portOutInfos, ∀ k, .inl k ∈ info.port → info.required ≤ FifoEntry.numFree (chans k)

omit [DecidableEq A] in
theorem Inv.covers {s : NetState A K Z Q T V D} (h : Inv net b s) (ha : Awake s.lastActive (net.rule a t).ioPatternWaiter) :
    Covers net s.chans a t := by
  constructor
  · intro info hinfo
    obtain ⟨c, v, p, hsound⟩ := h.sound info.port
    have hle := hsound.visible_of_active (ha _ (mem_waiter hinfo))
    rw [FifoOutlet.numAvailable, ← NetState.settled_queue]
    exact hle
  · intro info hinfo k hk
    obtain ⟨c, v, p, hsound⟩ := h.sound k
    have hle := hsound.free_of_active (ha (.chan k (.space info.required)) (mem_waiter_out hinfo hk))
    rw [FifoEntry.numFree, ← NetState.settled_queue]
    exact hle

/-- Where a delivery makes an actor search, no event of a transition it looks at only waits for its reset. -/
def Steady (net : Network A K Z Q T V D) (b : Build) (s : NetState A K Z Q T V D) : Label A K Z → Prop
  | .deliver a e => (s.nodes a).executing = false → Awake s.isActive e ∨ (s.nodes a).ct.isSome →
      ∀ t ∈ net.evaluated s a (net.searched b s a (s.nodes a).currentState), Awake s.lastActive (net.rule a t).ioPatternWaiter
  | _ => True

instance (net : Network A K Z Q T V D) (b : Build) (s : NetState A K Z Q T V D) : DecidablePred (Steady net b s) := fun l =>
  match l with
  | .deliver _ _ => inferInstanceAs (Decidable (_ → _ ∨ _ → ∀ t ∈ _, Awake _ _))
  | .call | .reset _ | .setActive _ _ | .setUseActivationCallback _ _ | .run _ | .step => inferInstanceAs (Decidable True)

theorem covers_logSearch {q : Option Q} {searches polled : Bool}
    (h : ∀ g ∈ s.guards, Covers net g.2.2 g.1 g.2.1)
    (hsearch : searches = true → ∀ t ∈ net.evaluated s.toNetState a (net.searched b s.toNetState a q), Covers net s.chans a t) :
    ∀ g ∈ (net.logSearch b a q searches polled s).guards, Covers net g.2.2 g.1 g.2.1 := by
  intro g hg
  rw [logSearch_guards] at hg
  rcases List.mem_append.mp hg with hg | hg
  · split at hg
    · rename_i hs
      obtain ⟨t, ht, rfl⟩ := List.mem_map.mp hg
      exact hsearch hs t ht
    · cases hg
  · exact h g hg

omit [DecidableEq A] in
theorem awake_of_evaluated {s : NetState A K Z Q T V D} {tl : List T} (h : t ∈ net.evaluated s a tl) :
    Awake s.isActive (net.rule a t).ioPatternWaiter := of_decide_eq_true (List.mem_filter.mp h).2

omit [DecidableEq A] in
theorem Inv.covers_settled {s : NetState A K Z Q T V D} (h : Inv net b s) (hs : s.Settled)
    (ha : Awake s.isActive (net.rule a t).ioPatternWaiter) : Covers net s.chans a t := by
  rw [← NetState.lastActive_of_nil hs.1] at ha
  exact h.covers ha

variable [DecidableEq Q]

theorem Stepped.covers [Token D] {l : Label A K Z} (hinv : Inv net b s.toNetState) (h : ∀ g ∈ s.guards, Covers net g.2.2 g.1 g.2.1)
    (hl : Steady net b s.toNetState l) (hs : Stepped net b s l s') : ∀ g ∈ s'.guards, Covers net g.2.2 g.1 g.2.1 := by
  cases hs with
  | silent hsame =>
    rw [hsame.guards]
    exact h
  | run => exact h
  | delivered he hn =>
    rw [Simulation.notifyActivation_guards]
    refine covers_logSearch h fun hsearch t ht => ?_
    rw [Bool.and_eq_true, Bool.or_eq_true, decide_eq_true_eq, Bool.not_eq_true'] at hsearch
    exact hinv.covers (hl hsearch.1 hsearch.2 t ht)
  | reset _ hset hc hc' hn =>
    rw [Simulation.notifyActivation_guards]
    exact covers_logSearch h fun _ t ht => hinv.covers_settled hset (awake_of_evaluated ht)
  | switched _ hset hc hn =>
    rw [Simulation.notifyActivation_guards]
    exact covers_logSearch h fun _ t ht => hinv.covers_settled hset (awake_of_evaluated ht)
  | @polled a _ hset hc hp =>
    have hpoll : ∀ g ∈ (net.logPoll b a s).guards, Covers net g.2.2 g.1 g.2.1 :=
      covers_logSearch h fun _ t ht => hinv.covers_settled hset (awake_of_evaluated ht)
    cases hp with
    | inactive => exact h
    | done => exact hpoll
    | @fire n t ha hn hct hassert =>
      intro g hg
      have hg : g ∈ (net.logFire b a n s).guards := hg
      rw [logFire] at hg
      split at hg
      · rcases List.mem_append.mp hg with hg | hg
        · obtain ⟨t, ht, rfl⟩ := List.mem_map.mp hg
          rw [logPoll_toNetState] at ht ⊢
          exact hinv.covers_settled hset (awake_of_evaluated ht)
        · exact hpoll g hg
      · exact hpoll g hg
  | finished hset hc => exact covers_logSearch h fun _ t ht => hinv.covers_settled hset (awake_of_evaluated ht)

variable [Token D] [Fintype A]

end Network

/-! ### A reader that looks further than another -/

def lookingAhead : Network Bool Unit Empty Nat Bool Unit Nat where
  kind _ := .multireader
  initialState _ := 0
  transitions a q := if a then [true, false] else if q = 0 then [false] else []
  destState a _ := if a then 0 else 1
  rule a t :=
    let n := if t then 3 else 1
    let guard := if a then .land (.input () n n) (.expr fun s => s.2 = [[some 6]]) else .input () n n
    ⟨guard, guard.inputs, guard.outputs, []⟩
  events_nil _ _ := rfl
  action _ _ v _ := (v, [])
  reset _ v := v
  chans := Empty.elim
  nodes := Empty.elim
  reader _ := true
  reader_eq _ _ _ _ h := by cases h

namespace lookingAhead

def chan (l : List Nat) : Option (FifoChan Nat Bool) :=
  [.data 1, .data 3].foldlM (ChanKind.multireader.request .checked) (.new 3 l)

theorem elaborated {l : List Nat} {ch : FifoChan Nat Bool} (hl : l.length ≤ 3) (h : chan l = some ch) :
    lookingAhead.Elaborated .checked fun _ => ch := by
  refine fun _ => ⟨3, l, _, hl, h, fun a t => ?_⟩
  cases a with
  | true | false =>
    cases t with
    | true | false => simp [lookingAhead, Guard.inputs, Guard.outputs]

def simulation (allowed : Simulation Bool Unit Empty Nat Bool Unit Nat → Label Bool Unit Empty → Prop)
    [∀ s, DecidablePred (allowed s)] (ch : FifoChan Nat Bool) : Option (Simulation Bool Unit Empty Nat Bool Unit Nat) :=
  lookingAhead.simulate .checked allowed [false, true] 60 [.inl (.inl ()), .inr false, .inr true]
    (Network.start (fun _ => ch) fun _ => ())

end lookingAhead

namespace Network

end Network

end SysteMoC
