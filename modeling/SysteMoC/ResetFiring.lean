import SysteMoC.NetworkSound

/-!
# Firings with a reset port

The ports of a rule are committed one after the other; a reset port resets its nodes and
channels in between, and the actor moves to its next state at last.
-/

namespace SysteMoC

open Cyclic
open CachedChoice (Call Awake)

/-! ## Channels after a reset -/

namespace FifoChan

variable {T ε : Type} {ch ch' : FifoChan T ε} {c v p n : Nat} {b : Build}

/-- The channel holds its initial tokens and `n` more. -/
def StartsOver (ch : FifoChan T ε) (n : Nat) : Prop :=
  ∃ ts, ts.length = n ∧ ch.contents = ch.initialTokens.map some ++ ts

theorem contents_congr (hq : ch'.toQueueFRVWPtr = ch.toQueueFRVWPtr)
    (h : ∀ i < ch.usedCount, ch'.storage (add ch.fsize ch.rindex i) = ch.storage (add ch.fsize ch.rindex i)) :
    ch'.contents = ch.contents := by
  simp only [contents, hq]
  exact List.map_congr_left fun i hi => h i (List.mem_range.mp hi)

theorem Fills.contents (h : Fills n ch ch') (ha : Areas ch.toQueueFRVWPtr c v p) (hn : n ≤ ch.freeCount) :
    ch'.contents = ch.contents := by
  have hfits := ha.fits
  have hfree := ha.freeCount_eq
  refine contents_congr h.queue fun i hi => h.storage _ fun j hj => ?_
  rw [ha.usedCount_eq] at hi
  rw [ha.windex_rindex, add_add]
  intro heq
  have := (add_inj ha.rindex_lt (by omega) (by omega)).mp heq
  omega

variable [SmocEvent ε]

theorem contents_entryStart (h : Areas ch.toQueueFRVWPtr c v p) (hn : n ≤ ch.freeCount)
    (hs : FifoEntry.commStart b ch n = some ch') : ∃ ts, ts.length = n ∧ ch'.contents = ch.contents ++ ts := by
  obtain ⟨q, hq, heq⟩ := Option.bind_eq_some_iff.mp hs
  obtain ⟨base, hbase, hq⟩ := Option.bind_eq_some_iff.mp hq
  rw [h.wpp_eq hn] at hbase
  cases hbase
  cases hq
  cases heq
  have hused : ({ ch.toQueueFRVWPtr with windex := add ch.fsize ch.windex n } : QueueFRVWPtr).usedCount = v + p + n := by
    rw [(h.wpp hn).usedCount_eq, Nat.add_assoc]
  refine ⟨(List.range n).map fun i => ch.storage (add ch.fsize ch.rindex (v + p + i)),
      by rw [List.length_map, List.length_range], ?_⟩
  show (List.range ({ ch.toQueueFRVWPtr with windex := add ch.fsize ch.windex n } : QueueFRVWPtr).usedCount).map
    (fun i => ch.storage (add ch.fsize ch.rindex i)) = _
  rw [hused, contents, h.usedCount_eq, List.range_add, List.map_append, List.map_map]
  rfl

theorem contents_entryFinish (h : Areas ch.toQueueFRVWPtr c v p) (hn : n ≤ p)
    (hs : ch.latencyExpired b n = some ch') : ch'.contents = ch.contents := by
  obtain ⟨q, hq, heq⟩ := Option.bind_eq_some_iff.mp hs
  obtain ⟨base, hbase, hq⟩ := Option.bind_eq_some_iff.mp hq
  rw [h.vpp_eq hn] at hbase
  cases hbase
  cases hq
  cases heq
  rfl

theorem startsOver_doReset [Token T] (h : Areas ch.toQueueFRVWPtr c v p) (hi : ch.initialTokens.length < ch.fsize)
    (hs : ch.doReset b = some ch') : ch'.StartsOver 0 := by
  have hpos := h.fsize_pos
  obtain ⟨ch₁, hs₁, hsim, hinit⟩ := Simulates.ofReset (n := ch.fsize - 1) (b := b) h (by omega) (by omega)
  cases hs.symm.trans hs₁
  have hheld := hsim.carries.held
  refine ⟨[], rfl, ?_⟩
  rw [List.append_nil, hinit]
  refine contents_eq hsim.carries.areas ?_ fun i hi => ?_
  · rw [List.length_map]
    rfl
  · rw [List.length_map] at hi
    rw [hheld i (by rw [List.length_append]; exact Nat.lt_add_right _ hi)]
    show (ch.initialTokens ++ [])[i]? = _
    rw [List.append_nil, List.getElem_map, List.getElem?_eq_getElem hi]

end FifoChan

/-! ## The tasks of a firing -/

namespace Task

variable {A K Z D : Type}

/-- What `commExec` of an output port does. -/
def Late : Task A K Z D → Prop
  | .op _ o => ∃ n, o = .entryStart n ∨ o = .entryFinish n false
  | _ => True

end Task

namespace Network

variable {A K Z Q T V D : Type} [DecidableEq A] [DecidableEq K] [DecidableEq Z] {net : Network A K Z Q T V D} {b : Build}
  {s s' : Simulation A K Z Q T V D} {a a' : A} {t : T} {k : K} {acc : Option Nat} {todo : List (Task A K Z D)}

/-- The channel is registered with the reset channel, or in a graph that is. -/
def Registered (net : Network A K Z Q T V D) (z : Z) (k : K) : Prop := ∃ r ∈ net.resets z, r = .inl (.inl k)

instance (net : Network A K Z Q T V D) (z : Z) : DecidablePred (net.Registered z) := fun _ =>
    inferInstanceAs (Decidable (∃ r ∈ _, _))

/-- How many tokens a channel has got since its last reset, where it has been reset. -/
def account (net : Network A K Z Q T V D) (k : K) (acc : Option Nat) : Task A K Z D → Option Nat
  | .op k' (.entryStart n) => if k' = k then acc.map (· + n) else acc
  | .produce z _ => if net.Registered z k then some 0 else acc
  | .reset (.inl (.inl k')) => if k' = k then some 0 else acc
  | _ => acc

/-- What output ports commit to a channel after the last one that resets it. -/
def lateCommits (net : Network A K Z Q T V D) (infos : List (PortOutInfo (List (K ⊕ Z)))) (k : K) : Option Nat :=
  (infos.flatMap (RuntimeFiringRule.commExecOut A D)).foldl (net.account k) none

/-- The task resets the actor, now or later. -/
def WillReset (net : Network A K Z Q T V D) (a : A) : Task A K Z D → Prop
  | .produce z _ => .inr a ∈ net.resets z
  | .reset r => r = .inr a
  | _ => False

theorem foldl_account_resets {rs : List ((K ⊕ Z) ⊕ A)} : ∀ {acc : Option Nat},
    (rs.map Task.reset).foldl (net.account k) acc = if ∃ r ∈ rs, r = .inl (.inl k) then some 0 else acc := by
  induction rs with
  | nil =>
    intro acc
    rw [if_neg (by rintro ⟨_, ⟨⟩, _⟩)]
    rfl
  | cons r rs ih =>
    intro acc
    rw [List.map_cons, List.foldl_cons, ih]
    by_cases hrs : ∃ r ∈ rs, r = .inl (.inl k)
    · rw [if_pos hrs, if_pos (hrs.imp fun _ h => ⟨List.mem_cons_of_mem _ h.1, h.2⟩)]
    · have hnot : .inl (.inl k) ∉ rs := fun h => hrs ⟨_, h, rfl⟩
      rw [if_neg hrs]
      match r with
      | .inl (.inl k') =>
        by_cases hk : k' = k
        · simp [account, hk]
        · simp [account, hk, Ne.symm hk, hnot]
      | .inl (.inr z) => simp [account, hnot]
      | .inr a => simp [account, hnot]

omit [DecidableEq A] [DecidableEq K] [DecidableEq Z] in
/-- The writes of the action and the input ports come before the output ports. -/
theorem tasks_eq (fr : RuntimeFiringRule K (List (K ⊕ Z)) (V × List (List (Option D)))) (writes : List (Nat × Nat × D)) :
    ∃ early, fr.tasks A writes = early ++ fr.portOutInfos.flatMap (RuntimeFiringRule.commExecOut A D) ∧
      ∀ task ∈ early, ∃ k o, task = .op k o ∧ ¬ task.Late := by
  refine ⟨_, rfl, fun task htask => ?_⟩
  rcases List.mem_append.mp htask with hwrite | hin
  · obtain ⟨w, _, hw⟩ := List.mem_filterMap.mp hwrite
    obtain ⟨info, _, hw⟩ := Option.bind_eq_some_iff.mp hw
    obtain ⟨sink, _, hw⟩ := Option.bind_eq_some_iff.mp hw
    obtain ⟨k, _, hw⟩ := Option.bind_eq_some_iff.mp hw
    cases hw
    exact ⟨_, _, rfl, by rintro ⟨_, h | h⟩ <;> cases h⟩
  · obtain ⟨info, _, hin⟩ := List.mem_flatMap.mp hin
    rcases List.mem_pair.mp hin with rfl | rfl
    · exact ⟨_, _, rfl, by rintro ⟨_, h | h⟩ <;> cases h⟩
    · exact ⟨_, _, rfl, by rintro ⟨_, h | h⟩ <;> cases h⟩

omit [DecidableEq A] [DecidableEq K] [DecidableEq Z] in
theorem late_tasks {info : PortOutInfo (List (K ⊕ Z))} {task : Task A K Z D}
    (h : task ∈ RuntimeFiringRule.commExecOut A D info) : task.Late := by
  rw [RuntimeFiringRule.commExecOut, List.mem_append] at h
  rcases h with hcopy | hcommit
  · split at hcopy
    · obtain ⟨sink, _, hs⟩ := List.mem_filterMap.mp hcopy
      obtain ⟨k', _, rfl⟩ := Option.map_eq_some_iff.mp hs
      exact trivial
    · cases hcopy
  · obtain ⟨sink, _, hs⟩ := List.mem_flatMap.mp hcommit
    cases sink with
    | inl k =>
      rcases List.mem_pair.mp hs with rfl | rfl
      · exact ⟨_, .inl rfl⟩
      · exact ⟨_, .inr rfl⟩
    | inr z =>
      cases List.mem_singleton.mp hs
      exact trivial

theorem foldl_account_ops {l : List (Task A K Z D)} (h : ∀ task ∈ l, ∃ k o, task = .op k o) :
    l.foldl (net.account k) none = none := by
  induction l with
  | nil => rfl
  | cons task l ih =>
    obtain ⟨k', o, rfl⟩ := h task List.mem_cons_self
    have hop : net.account k none (.op k' o) = none := by
      cases o with
      | entryStart n => simp [account]
      | _ => rfl
    rw [List.foldl_cons, hop]
    exact ih fun task htask => h task (List.mem_cons_of_mem _ htask)

/-! ## A firing, step by step -/

/-- The actor is in its initial state, and has no choice unless it hears of its events. -/
def AtStart (net : Network A K Z Q T V D) (s : NetState A K Z Q T V D) (a : A) : Prop :=
  (s.nodes a).currentState = some (net.initialState a) ∧ ((s.nodes a).callbackDriven = true ∨ (s.nodes a).ct = none)

/-- What is left to do of a firing, and what is reset so far. -/
structure Pending (net : Network A K Z Q T V D) (a : A) (t : T) (s : NetState A K Z Q T V D) (todo : List (Task A K Z D)) :
    Prop where
  ordered : todo.Pairwise fun task task' => task.Late → task'.Late
  chans : ∀ k, ∃ acc, todo.foldl (net.account k) acc = net.lateCommits (net.rule a t).portOutInfos k ∧
    ∀ n, acc = some n → (∀ task ∈ todo, task.Late) ∧ (s.chans k).StartsOver n
  nodes : ∀ info ∈ (net.rule a t).portOutInfos, ∀ z, .inr z ∈ info.port → ∀ a', .inr a' ∈ net.resets z → a' ≠ a →
    (∃ task ∈ todo, net.WillReset a' task) ∨ net.AtStart s a'

theorem pending_tasks {s : NetState A K Z Q T V D} {writes : List (Nat × Nat × D)} :
    Pending net a t s ((net.rule a t).tasks A writes) where
  ordered := by
    obtain ⟨early, heq, hearly⟩ := tasks_eq (A := A) (net.rule a t) writes
    rw [heq, List.pairwise_append]
    have hnot : ∀ task ∈ early, ¬ task.Late := by
      intro task htask
      obtain ⟨_, _, _, hnot⟩ := hearly task htask
      exact hnot
    refine ⟨List.pairwise_of_forall_mem_list ?_, List.pairwise_of_forall_mem_list ?_, ?_⟩
    · exact fun task htask _ _ hl => absurd hl (hnot task htask)
    · intro _ _ task' htask' _
      obtain ⟨_, _, h⟩ := List.mem_flatMap.mp htask'
      exact late_tasks h
    · exact fun task htask _ _ hl => absurd hl (hnot task htask)
  chans k := by
    obtain ⟨early, heq, hearly⟩ := tasks_eq (A := A) (net.rule a t) writes
    refine ⟨none, ?_, by rintro _ ⟨⟩⟩
    rw [heq, List.foldl_append, foldl_account_ops]
    · rfl
    · intro task htask
      obtain ⟨k', o, h, _⟩ := hearly task htask
      exact ⟨k', o, h⟩
  nodes info hinfo z hz a' ha' _ := by
    refine .inl ⟨.produce z info.produced, ?_, ha'⟩
    rw [RuntimeFiringRule.tasks]
    refine List.mem_append_right _ (List.mem_flatMap.mpr ⟨info, hinfo, ?_⟩)
    rw [RuntimeFiringRule.commExecOut]
    exact List.mem_append_right _ (List.mem_flatMap.mpr ⟨.inr z, hz, List.mem_singleton.mpr rfl⟩)

variable [DecidableEq Q]

omit [DecidableEq A] [DecidableEq Q] in
theorem Inv.hearing {s : NetState A K Z Q T V D} {e : Finset (NetEvent K Z)} (h : Inv net b s) (he : e ∈ s.signals a) :
    (s.nodes a).callbackDriven = true := by
  have hmem := h.signals a he
  rw [(h.idle a).listening] at hmem
  cases hd : (s.nodes a).callbackDriven with
  | true => rfl
  | false =>
    rw [NodeBase.required_inactive hd] at hmem
    exact absurd hmem (Finset.notMem_empty e)

omit [DecidableEq A] [DecidableEq K] [DecidableEq Z] [DecidableEq Q] in
theorem AtStart.congr {s s' : NetState A K Z Q T V D} (h : net.AtStart s a) (hn : s'.nodes a = s.nodes a) : net.AtStart s' a := by
  rw [AtStart, hn]
  exact h

omit [DecidableEq Q] in
theorem atStart_wasReset {n : NodeBase Q T (Finset (NetEvent K Z))} {sent : Option Bool} {check : T → Bool}
    {s : NetState A K Z Q T V D} (hn : NodeBase.WasReset (net.fsm a) check (s.nodes a) n sent) :
    net.AtStart { s with nodes := Function.update s.nodes a n } a := by
  rw [AtStart]
  simp only [Function.update_self]
  refine ⟨hn.currentState, ?_⟩
  cases hd : (s.nodes a).callbackDriven with
  | true => exact .inl (hn.callbackDriven.trans hd)
  | false => exact .inr (hn.ct.trans (if_neg (by simp [hd])))

theorem atStart_stepped {l : Label A K Z} (hinv : Inv net b s.toNetState) (hc : s.control = .executing a t todo) (ha : a' ≠ a)
    (hs : Stepped net b s l s') (h : net.AtStart s.toNetState a') : net.AtStart s'.toNetState a' := by
  cases hs with
  | silent hsame => exact h.congr (congrFun hsame.nodes a')
  | @delivered a₁ e n sent he hn =>
    rw [Simulation.notifyActivation_toNetState, Simulation.setNode_toNetState, logSearch_toNetState]
    by_cases ha₁ : a' = a₁
    · subst ha₁
      have hd := hinv.hearing he
      rw [AtStart]
      simp only [Function.update_self]
      cases hn with
      | executing | ignored => exact h
      | activated | deactivated => exact ⟨h.1, .inl hd⟩
    · exact h.congr (Function.update_of_ne ha₁ _ _)
  | @reset _ a₁ n sent control _ _ _ _ hn =>
    rw [Simulation.notifyActivation_toNetState, Simulation.setNode_toNetState, logSearch_toNetState]
    by_cases ha₁ : a' = a₁
    · subst ha₁
      exact (atStart_wasReset hn).congr rfl
    · exact h.congr (Function.update_of_ne ha₁ _ _)
  | switched _ _ hc' =>
    rw [hc] at hc'
    cases hc'
  | run _ hc' | polled _ hc' =>
    rw [hc] at hc'
    cases hc'
  | @finished a₁ t₁ _ hc' =>
    cases hc.symm.trans hc'
    simp only [Network.finish, Simulation.setNode_toNetState, logSearch_toNetState]
    exact h.congr (Function.update_of_ne ha _ _)

theorem Pending.pop {task : Task A K Z D} (h : Pending net a t s.toNetState (task :: todo)) (hinv : Inv net b s.toNetState)
    (hc : s.control = .executing a t (task :: todo)) (hs : Stepped net b s .step s')
    (hlate : ∀ k n, net.account k none task = some n → task.Late)
    (hchans : ∀ k acc, (∀ n, acc = some n → task.Late ∧ (s.chans k).StartsOver n) →
      ∀ n, net.account k acc task = some n → (s'.chans k).StartsOver n)
    (hnodes : ∀ a', net.WillReset a' task → net.AtStart s'.toNetState a') : Pending net a t s'.toNetState todo where
  ordered := h.ordered.tail
  chans k := by
    obtain ⟨acc, hfold, hacc⟩ := h.chans k
    refine ⟨net.account k acc task, hfold, fun n hn => ⟨?_, ?_⟩⟩
    · have hfirst : task.Late := by
        cases acc with
        | none => exact hlate k n hn
        | some m => exact (hacc m rfl).1 task List.mem_cons_self
      exact fun task' htask' => List.rel_of_pairwise_cons h.ordered htask' hfirst
    · exact hchans k acc (fun m hm => ⟨(hacc m hm).1 task List.mem_cons_self, (hacc m hm).2⟩) n hn
  nodes info hinfo z hz a' ha' hne := by
    rcases h.nodes info hinfo z hz a' ha' hne with ⟨task', htask', hreset⟩ | hstart
    · rcases List.mem_cons.mp htask' with rfl | htask'
      · exact .inr (hnodes a' hreset)
      · exact .inl ⟨task', htask', hreset⟩
    · exact .inr (atStart_stepped hinv hc hne hs hstart)

variable [Token D]

omit [Token D] [DecidableEq Q] in
theorem account_op_none {k : K} {o : FifoOp D} : net.account k none (.op k' o) = none := by
  cases o with
  | entryStart n => simp [account]
  | _ => rfl

omit [DecidableEq Q] in
theorem startsOver_chanOp {s s' : NetState A K Z Q T V D} {o : FifoOp D} (hinv : Inv net b s) (hs : s.Settled)
    (hg : (s.chans k).Guarded o) (ho : net.chanOp b k o s = some s') (k' : K) (acc : Option Nat)
    (hacc : ∀ n, acc = some n → (Task.op k o : Task A K Z D).Late ∧ (s.chans k').StartsOver n) :
    ∀ n, net.account k' acc (.op k o) = some n → (s'.chans k').StartsOver n := by
  obtain ⟨ch, hch, rfl⟩ := chanOp_cases ho
  intro n hn
  cases acc with
  | none =>
    rw [account_op_none] at hn
    cases hn
  | some m =>
    obtain ⟨⟨j, hlate⟩, ts, hts, hcontents⟩ := hacc m rfl
    by_cases hk : k' = k
    · subst hk
      obtain ⟨c, v, p, hsound⟩ := hinv.sound k'
      rw [NetState.settled_of_nil hs.1] at hsound
      have hinit := ChanKind.initialTokens_step hch
      simp only [Function.update_self]
      rcases hlate with rfl | rfl
      · have hstart : FifoEntry.commStart b (s.chans k') j = some ch := by
          cases hkind : net.kind k' with
          | fifo | multireader =>
            rw [hkind] at hch
            exact hch
        obtain ⟨ts', hts', hcontents'⟩ := FifoChan.contents_entryStart hsound.areas hg hstart
        have hn : some (m + j) = some n := by
          rw [← hn]
          simp [account]
        cases hn
        refine ⟨ts ++ ts', by rw [List.length_append, hts, hts'], ?_⟩
        show ch.contents = ch.initialTokens.map some ++ _
        rw [hcontents', hcontents, hinit, List.append_assoc]
      · have hfinish : (s.chans k').latencyExpired b j = some ch := by
          cases hkind : net.kind k' with
          | fifo =>
            rw [hkind] at hch
            exact hch
          | multireader =>
            rw [hkind] at hch
            obtain ⟨_, _, hch⟩ := Option.bind_eq_some_iff.mp hch
            exact hch
        have hj : j ≤ p := by
          rw [← hsound.areas.pipeline_eq]
          exact hg
        cases hn
        refine ⟨ts, hts, ?_⟩
        show ch.contents = ch.initialTokens.map some ++ _
        rw [FifoChan.contents_entryFinish hsound.areas hj hfinish, hcontents, hinit]
    · have hsame : net.account k' (some m) (.op k o) = some m := by
        rcases hlate with rfl | rfl
        · exact if_neg (Ne.symm hk)
        · rfl
      rw [hsame] at hn
      cases hn
      simp only [Function.update_of_ne hk]
      exact ⟨ts, hts, hcontents⟩

omit [DecidableEq A] [DecidableEq Q] in
theorem startsOver_copied {s : NetState A K Z Q T V D} {n m : Nat} {head ch : FifoChan D Bool} (hinv : Inv net b s)
    (hs : s.Settled) (hn : n ≤ FifoEntry.numFree (s.chans k)) (hn' : n ≤ FifoEntry.numFree (s.chans k'))
    (hcopy : copyTokens b n 0 n (s.chans k) (s.chans k') = some (head, ch)) (k'' : K) (h : (s.chans k'').StartsOver m) :
    (Function.update (Function.update s.chans k head) k' ch k'').StartsOver m := by
  rcases hinv.fills hs hn hn' hcopy k'' with hsame | ⟨hf, hfree⟩
  · rw [hsame]
    exact h
  · obtain ⟨c, v, p, hsound⟩ := hinv.sound k''
    rw [NetState.settled_of_nil hs.1] at hsound
    obtain ⟨ts, hts, hcontents⟩ := h
    refine ⟨ts, hts, ?_⟩
    rw [hf.contents hsound.areas hfree, hcontents, hf.others]

omit [DecidableEq Q] in
theorem startsOver_reset {s s' : NetState A K Z Q T V D} (hinv : Inv net b s) (hs : s.Settled)
    (ho : net.chanOp b k .doReset s = some s') (k' : K) (h : ∀ n, acc = some n → (s.chans k').StartsOver n) :
    ∀ n, net.account k' acc (.reset (.inl (.inl k))) = some n → (s'.chans k').StartsOver n := by
  intro n hn
  obtain ⟨ch, hch, rfl⟩ := chanOp_cases ho
  by_cases hk : k' = k
  · subst hk
    obtain ⟨c, v, p, hsound⟩ := hinv.sound k'
    rw [NetState.settled_of_nil hs.1] at hsound
    have hreset : (s.chans k').doReset b = some ch := by
      cases hkind : net.kind k' with
      | fifo | multireader =>
        rw [hkind] at hch
        exact hch
    obtain ⟨ts, hts, hcontents⟩ := FifoChan.startsOver_doReset hsound.areas hsound.initial_lt hreset
    have hn : some 0 = some n := by
      rw [← hn]
      exact (if_pos rfl).symm
    cases hn
    simp only [Function.update_self]
    exact ⟨ts, hts, hcontents⟩
  · have hsame : net.account k' acc (.reset (.inl (.inl k))) = acc := if_neg (Ne.symm hk)
    rw [hsame] at hn
    simp only [Function.update_of_ne hk]
    exact h n hn

omit [DecidableEq Q] [Token D] in
theorem Pending.produced {s s' : NetState A K Z Q T V D} {z : Z} {n : Nat} (h : Pending net a t s (.produce z n :: todo))
    (hchans : s'.chans = s.chans) (hnodes : s'.nodes = s.nodes) :
    Pending net a t s' ((net.resets z).map .reset ++ todo) := by
  have hall : ∀ task ∈ (net.resets z).map Task.reset ++ todo, (task : Task A K Z D).Late := by
    intro task htask
    rcases List.mem_append.mp htask with hr | htask
    · obtain ⟨_, _, rfl⟩ := List.mem_map.mp hr
      exact trivial
    · exact List.rel_of_pairwise_cons h.ordered htask trivial
  refine ⟨List.pairwise_of_forall_mem_list fun _ _ task' htask' _ => hall task' htask', fun k => ?_, ?_⟩
  · obtain ⟨acc, hfold, hacc⟩ := h.chans k
    refine ⟨acc, ?_, fun n hn => ⟨hall, ?_⟩⟩
    · rw [List.foldl_append, foldl_account_resets]
      exact hfold
    · rw [hchans]
      exact (hacc n hn).2
  · intro info hinfo z' hz' a' ha' hne
    rcases h.nodes info hinfo z' hz' a' ha' hne with ⟨task', htask', hreset⟩ | hstart
    · rcases List.mem_cons.mp htask' with rfl | htask'
      · exact .inl ⟨.reset (.inr a'), List.mem_append_left _ (List.mem_map_of_mem hreset), rfl⟩
      · exact .inl ⟨task', List.mem_append_right _ htask', hreset⟩
    · exact .inr (hstart.congr (congrFun hnodes a'))

theorem Pending.doTask {task : Task A K Z D} (hinv : Inv net b s.toNetState) (h : Pending net a t s.toNetState (task :: todo))
    (hset : s.Settled) (hc : s.control = .executing a t (task :: todo)) (hw : WithinCounts s.toNetState (.step : Label A K Z))
    (hst : Stepped net b s .step s') (hs : net.doTask b a t task todo s = some s') :
    ∃ todo', s'.control = .executing a t todo' ∧ Pending net a t s'.toNetState todo' := by
  have hrest : Inv net b { s.toNetState with control := .executing a t todo } := by
    refine hinv.setControl (fun a' => by rw [hc]; exact Iff.rfl) ?_
    rintro _ _ _ ⟨⟩ task' hmem
    exact hinv.todo a t _ hc task' (List.mem_cons_of_mem _ hmem)
  unfold WithinCounts at hw
  rw [hc] at hw
  cases task with
  | op k o =>
    obtain ⟨s₁, ho, heq⟩ := Option.bind_eq_some_iff.mp hs
    cases heq
    refine ⟨todo, ?_, h.pop hinv hc hst ?_ ?_ (by rintro _ ⟨⟩)⟩
    · obtain ⟨ch, _, rfl⟩ := chanOp_cases ho
      rfl
    · intro k' n hn
      rw [account_op_none] at hn
      cases hn
    · exact fun k' acc hacc => startsOver_chanOp hrest hset hw ho k' acc hacc
  | copy k k' n =>
    obtain ⟨⟨head, ch⟩, hcopy, heq⟩ := Option.bind_eq_some_iff.mp hs
    cases heq
    refine ⟨todo, rfl, h.pop hinv hc hst (by rintro _ _ ⟨⟩) ?_ (by rintro _ ⟨⟩)⟩
    intro k'' acc hacc m hm
    exact startsOver_copied hinv hset hw.1 hw.2 hcopy k'' (hacc m hm).2
  | produce z n =>
    obtain ⟨_, _, heq⟩ := Option.bind_eq_some_iff.mp hs
    cases heq
    exact ⟨_, rfl, h.produced rfl rfl⟩
  | reset r =>
    match r with
    | .inl (.inl k) =>
      obtain ⟨s₁, ho, heq⟩ := Option.bind_eq_some_iff.mp hs
      cases heq
      refine ⟨todo, ?_, h.pop hinv hc hst (fun _ _ _ => trivial) ?_ (by rintro _ ⟨⟩)⟩
      · obtain ⟨ch, _, rfl⟩ := chanOp_cases ho
        rfl
      · exact fun k' acc hacc => startsOver_reset hrest hset ho k' fun n hn => (hacc n hn).2
    | .inl (.inr z) =>
      cases hs
      exact ⟨todo, rfl, h.pop hinv hc hst (fun _ _ _ => trivial) (fun k acc hacc n hn => (hacc n hn).2) (by rintro _ ⟨⟩)⟩
    | .inr a' =>
      cases hs
      obtain ⟨n, sent, hn, heq⟩ := resetNode_cases (b := b) (s := { s with control := .executing a t todo }) (hinv.idle a')
      have hstate : (net.resetNode b a' { s with control := .executing a t todo }).toNetState = { s.toNetState with
          control := .executing a t todo
          vars := Function.update s.vars a' (net.reset a' (s.vars a'))
          nodes := Function.update s.nodes a' n } := by
        rw [heq, Simulation.notifyActivation_toNetState, Simulation.setNode_toNetState, logSearch_toNetState]
      have hpop := h.pop hinv hc hst (fun _ _ _ => trivial)
        (fun k acc hacc n hn => by
          rw [hstate]
          exact (hacc n hn).2)
        (fun a₁ ha₁ => by
          cases ha₁
          rw [hstate]
          exact (atStart_wasReset hn).congr rfl)
      refine ⟨todo, ?_, hpop⟩
      rw [hstate]

/-- The firing has begun, what is left of it is pending, or it is done. -/
inductive Fired (net : Network A K Z Q T V D) (b : Build) (a : A) (t : T) (s : NetState A K Z Q T V D) : Prop where
  | acting (hc : s.control = .acting a t)
  | executing (todo : List (Task A K Z D)) (hc : s.control = .executing a t todo) (h : Pending net a t s todo)
  | done (hc : s.control = .polling a) (hs : s.Settled) (h : Pending net a t s [])
      (hq : (s.nodes a).currentState = some (net.destState a t))
      (hct : (s.nodes a).ct = (net.transitions a (net.destState a t)).find? (net.check b s a) ∨ (s.nodes a).ct = none)

def Fires (a : A) (t : T) : Control A K Z T D → Prop
  | .acting a' t' | .executing a' t' _ => a' = a ∧ t' = t
  | _ => False

instance [DecidableEq T] (a : A) (t : T) : DecidablePred (Fires (K := K) (Z := Z) (D := D) a t) := fun c => by
  cases c with
  | acting a' t' | executing a' t' todo => exact inferInstanceAs (Decidable (a' = a ∧ t' = t))
  | idle | polling a' => exact inferInstanceAs (Decidable False)

omit [DecidableEq A] [DecidableEq K] [DecidableEq Z] [DecidableEq Q] [Token D] in
theorem Fires.acting {c : Control A K Z T D} (h : Fires a t c) (hc : c.mayCall = true) : c = .acting a t := by
  cases c with
  | acting a' t' =>
    obtain ⟨rfl, rfl⟩ := h
    rfl
  | idle => cases h
  | polling | executing => cases hc

omit [DecidableEq A] [DecidableEq Z] [DecidableEq Q] [Token D] in
theorem startsOver_callChans {chans : K → FifoChan D Bool} {c : NetEvent K Z × Call} {n : Nat} (h : (chans k).StartsOver n) :
    (NetState.callChans chans c k).StartsOver n := by
  have hsame : (NetState.callChans chans c k).withEventsOf (chans k) = chans k := withEventsOf_callChans
  rw [← hsame] at h
  exact h

omit [Token D] in
theorem Pending.keep {l : Label A K Z} (h : Pending net a t s.toNetState todo) (hinv : Inv net b s.toNetState)
    (hc : s.control = .executing a t todo) (hs : Stepped net b s l s')
    (hchans : ∀ k n, (s.chans k).StartsOver n → (s'.chans k).StartsOver n) : Pending net a t s'.toNetState todo where
  ordered := h.ordered
  chans k := by
    obtain ⟨acc, hfold, hacc⟩ := h.chans k
    exact ⟨acc, hfold, fun n hn => ⟨(hacc n hn).1, hchans k n (hacc n hn).2⟩⟩
  nodes info hinfo z hz a' ha' hne :=
    (h.nodes info hinfo z hz a' ha' hne).imp_right (atStart_stepped hinv hc hne hs)

variable [Fintype A]

/-- While an actor is scheduled, the other steps leave the control and the tokens as they are. -/
theorem keeps_of_ne_step {l : Label A K Z} (hinv : Inv net b s.toNetState) (hidle : s.control.isIdle = false) (hl : l ≠ .step)
    (hs : net.step b s l = some s') :
    s'.control = s.control ∧ ∀ k n, (s.chans k).StartsOver n → (s'.chans k).StartsOver n := by
  cases l with
  | deliver a e =>
    obtain ⟨_, hs⟩ := Option.ite_none_right_eq_some.mp hs
    obtain ⟨n, sent, _, rfl⟩ := deliver_cases (hinv.idle a) hs
    rw [Simulation.notifyActivation_toNetState, Simulation.setNode_toNetState, logSearch_toNetState]
    exact ⟨rfl, fun _ _ h => h⟩
  | call =>
    obtain ⟨_, hs⟩ := Option.ite_none_right_eq_some.mp hs
    unfold Network.nextCall at hs
    split at hs
    · cases hs
    · cases hs
      exact ⟨rfl, fun _ _ h => startsOver_callChans h⟩
  | setActive a flag =>
    obtain ⟨_, hs⟩ := Option.ite_none_right_eq_some.mp hs
    obtain ⟨n, sent, _, rfl⟩ := setActive_cases (hinv.idle a) hs
    rw [Simulation.notifyActivation_toNetState, Simulation.setNode_toNetState, logSearch_toNetState]
    exact ⟨rfl, fun _ _ h => h⟩
  | setUseActivationCallback a flag =>
    obtain ⟨_, hs⟩ := Option.ite_none_right_eq_some.mp hs
    cases hs
    obtain ⟨n, sent, _, heq⟩ := setUseActivationCallback_cases (b := b) flag (hinv.idle a)
    rw [heq, Simulation.notifyActivation_toNetState, Simulation.setNode_toNetState, logSearch_toNetState]
    exact ⟨rfl, fun _ _ h => h⟩
  | reset r =>
    obtain ⟨⟨_, h⟩, _⟩ := Option.ite_none_right_eq_some.mp hs
    rw [hidle] at h
    cases h
  | run a =>
    obtain ⟨⟨_, h, _⟩, _⟩ := Option.ite_none_right_eq_some.mp hs
    rw [hidle] at h
    cases h
  | step => exact absurd rfl hl

omit [Token D] [Fintype A] in
theorem Pending.finish (h : Pending net a t s.toNetState []) (hinv : Inv net b s.toNetState) (hset : s.Settled)
    (hc : s.control = .executing a t []) : Fired net b a t (net.finish b a t s).toNetState := by
  have hn := (hinv.idle a).scheduleReturn (net.check b s.toNetState a) t
  have hstate : (net.finish b a t s).toNetState = { s.toNetState with
      nodes := Function.update s.nodes a ((s.nodes a).scheduleReturn (net.fsm a) (net.check b s.toNetState a) t)
      control := .polling a } := by
    simp only [Network.finish, Simulation.setNode_toNetState, logSearch_toNetState]
  have hst : Stepped net b s .step (net.finish b a t s) := .finished hset hc
  have hkeep := h.keep hinv hc hst fun k n hover => by
    rw [hstate]
    exact hover
  rw [hstate] at hkeep ⊢
  have hnode : Function.update s.nodes a ((s.nodes a).scheduleReturn (net.fsm a) (net.check b s.toNetState a) t) a =
      (s.nodes a).scheduleReturn (net.fsm a) (net.check b s.toNetState a) t := Function.update_self ..
  refine .done rfl hset hkeep ?_ ?_
  · simp only [hnode]
    exact hn.currentState
  · simp only [hnode]
    rw [hn.ct]
    split
    · exact .inl rfl
    · exact .inr rfl

theorem Fired.step {l : Label A K Z} (hinv : Inv net b s.toNetState) (h : Fired net b a t s.toNetState)
    (hw : WithinCounts s.toNetState l) (hf : Fires a t s.control) (hs : net.step b s l = some s') :
    Fired net b a t s'.toNetState := by
  have hst := step_cases hinv.idle hs
  have hidle : s.control.isIdle = false := by
    cases hc : s.control with
    | idle =>
      rw [hc] at hf
      exact hf.elim
    | polling | acting | executing => rfl
  by_cases hl : l = .step
  · subst hl
    obtain ⟨hset, hs⟩ := Option.ite_none_right_eq_some.mp hs
    cases h with
    | acting hc =>
      rw [Network.proceed, hc] at hs
      cases hs
      exact .executing _ rfl pending_tasks
    | executing todo hc h =>
      rw [Network.proceed, hc] at hs
      cases todo with
      | nil =>
        cases hs
        exact h.finish hinv hset hc
      | cons task todo =>
        obtain ⟨todo', hc', h'⟩ := h.doTask hinv hset hc hw hst hs
        exact .executing todo' hc' h'
    | done hc =>
      rw [hc] at hf
      exact hf.elim
  · obtain ⟨hcontrol, hchans⟩ := keeps_of_ne_step hinv hidle hl hs
    cases h with
    | acting hc => exact .acting (hcontrol.trans hc)
    | executing todo hc h => exact .executing todo (hcontrol.trans hc) (h.keep hinv hc hst hchans)
    | done hc =>
      rw [hc] at hf
      exact hf.elim

omit [DecidableEq Q] [Token D] [Fintype A] in
theorem isSome_account {task : Task A K Z D} (h : acc.isSome) : (net.account k acc task).isSome := by
  obtain ⟨n, rfl⟩ := Option.isSome_iff_exists.mp h
  unfold account
  split
  · split
    · rfl
    · rfl
  · split
    · rfl
    · rfl
  · split
    · rfl
    · rfl
  · rfl

omit [DecidableEq Q] [Token D] [Fintype A] in
theorem isSome_foldl_account {l : List (Task A K Z D)} : ∀ {acc : Option Nat}, acc.isSome →
    (l.foldl (net.account k) acc).isSome := by
  induction l with
  | nil => exact fun {_} h => h
  | cons task l ih => exact fun {_} h => ih (isSome_account h)

omit [DecidableEq Q] [Token D] [Fintype A] in
theorem isSome_lateCommits {infos : List (PortOutInfo (List (K ⊕ Z)))} {info : PortOutInfo (List (K ⊕ Z))} {z : Z}
    (hinfo : info ∈ infos) (hz : .inr z ∈ info.port) (hk : .inl (.inl k) ∈ net.resets z) : (net.lateCommits infos k).isSome := by
  have hmem : .produce z info.produced ∈ infos.flatMap (RuntimeFiringRule.commExecOut A D) := by
    refine List.mem_flatMap.mpr ⟨info, hinfo, ?_⟩
    rw [RuntimeFiringRule.commExecOut]
    exact List.mem_append_right _ (List.mem_flatMap.mpr ⟨.inr z, hz, List.mem_singleton.mpr rfl⟩)
  obtain ⟨l₁, l₂, hl⟩ := List.append_of_mem hmem
  rw [lateCommits, hl, List.foldl_append, List.foldl_cons]
  refine isSome_foldl_account ?_
  rw [account, if_pos ⟨_, hk, rfl⟩]
  rfl

theorem fired_run {s₀ : Simulation A K Z Q T V D} (hinv : Inv net b s₀.toNetState) (hc : s₀.control = .acting a t)
    (hr : Relation.ReflTransGen (net.StepOf b fun s l => WithinCounts s.toNetState l ∧ Fires a t s.control) s₀ s) :
    Inv net b s.toNetState ∧ Fired net b a t s.toNetState := by
  induction hr with
  | refl => exact ⟨hinv, .acting hc⟩
  | tail _ hstep ih =>
    obtain ⟨l, ⟨hw, hf⟩, hs⟩ := hstep
    exact ⟨ih.1.step hw hs, ih.2.step ih.1 hw hf hs⟩

/-- A reset firing resets the net, but for the actor that fires and what later ports commit. -/
theorem reset_firing (net : Network A K Z Q T V D) (b : Build) {chans : K → FifoChan D Bool} {vars : A → V}
    {s₀ s : Simulation A K Z Q T V D} {a : A} {t : T} (h : net.Elaborated b chans)
    (hr₀ : Relation.ReflTransGen (net.StepOf b fun s l => WithinCounts s.toNetState l) (start chans vars) s₀)
    (hc₀ : s₀.control = .acting a t)
    (hr : Relation.ReflTransGen (net.StepOf b fun s l => WithinCounts s.toNetState l ∧ Fires a t s.control) s₀ s)
    (hc : s.control = .polling a) :
    ((s.nodes a).currentState = some (net.destState a t) ∧
        ((s.nodes a).ct = (net.transitions a (net.destState a t)).find? (net.check b s.toNetState a) ∨
          (s.nodes a).ct = none)) ∧
      ∀ info ∈ (net.rule a t).portOutInfos, ∀ z, .inr z ∈ info.port →
        (∀ a', .inr a' ∈ net.resets z → a' ≠ a → (s.nodes a').currentState = some (net.initialState a') ∧
          ((s.nodes a').ct = (net.transitions a' (net.initialState a')).find? (net.check b s.toNetState a') ∨
            (s.nodes a').ct = none)) ∧
        ∀ k, .inl (.inl k) ∈ net.resets z → ∃ ts,
          net.lateCommits (net.rule a t).portOutInfos k = some ts.length ∧
            (s.chans k).contents = (chans k).initialTokens.map some ++ ts := by
  have hinv₀ := inv_run (inv_start h) hr₀
  obtain ⟨hinv, hfired⟩ := fired_run hinv₀ hc₀ hr
  cases hfired with
  | acting hc' => cases hc.symm.trans hc'
  | executing _ hc' => cases hc.symm.trans hc'
  | done _ hs hp hq hct =>
    refine ⟨⟨hq, hct⟩, fun info hinfo z hz => ⟨fun a' ha' hne => ?_, fun k hk => ?_⟩⟩
    · rcases hp.nodes info hinfo z hz a' ha' hne with ⟨_, ⟨⟩, _⟩ | ⟨hstart, hchoice⟩
      refine ⟨hstart, ?_⟩
      rcases hchoice with hd | hnone
      · refine .inl (hinv.ct_eq hs ?_ hd hstart)
        rw [← Bool.not_eq_true, hinv.executing a', hc]
        exact id
      · exact .inr hnone
    · obtain ⟨acc, hfold, hacc⟩ := hp.chans k
      obtain ⟨n, hn⟩ := Option.isSome_iff_exists.mp (isSome_lateCommits hinfo hz hk)
      obtain ⟨_, ts, rfl, hcontents⟩ := hacc n (hfold.trans hn)
      have hinit : (s.chans k).initialTokens = (chans k).initialTokens :=
        (initialTokens_run hinv₀ (run_mono (fun _ _ => And.left) hr) k).trans (initialTokens_run (inv_start h) hr₀ k)
      exact ⟨ts, hn, by rw [hcontents, hinit]⟩

end Network

/-! ### An actor that resets its net -/

def restarting : Network Bool Unit Unit Nat Unit Unit Nat where
  kind _ := .fifo
  initialState _ := 0
  transitions _ q := if q = 0 then [()] else []
  destState _ _ := 1
  rule a _ :=
    let guard := if a then .input () 2 2 else .land (.output [.inr ()] 1 1) (.output [.inl ()] 1 1)
    ⟨guard, guard.inputs, guard.outputs, []⟩
  events_nil _ _ := rfl
  action a _ v _ := (v, if a then [] else [(1, 0, 8)])
  reset _ v := v
  chans _ := [.inl ()]
  nodes _ := [.actor false, .actor true]
  reader _ := true
  reader_eq a _ info h _ := by
    cases a with
    | true => rfl
    | false => simp [Guard.inputs] at h

namespace restarting

def chan : Option (FifoChan Nat Bool) := [.data 2, .space 1].foldlM (ChanKind.fifo.request .checked) (.new 3 [7])

theorem elaborated {ch : FifoChan Nat Bool} (h : chan = some ch) : restarting.Elaborated .checked fun _ => ch := by
  refine fun _ => ⟨3, [7], _, by decide, h, fun a t => ?_⟩
  cases a with
  | true | false => simp [restarting, Guard.inputs, Guard.outputs]

def before (ch : FifoChan Nat Bool) : Option (Simulation Bool Unit Unit Nat Unit Unit Nat) :=
  restarting.simulate .checked (fun s l => Network.WithinCounts s.toNetState l) [false, true] 10
    [.inl (.inl ()), .inl (.inr ()), .inr false, .inr true] (Network.start (fun _ => ch) fun _ => ())

def after (s : Simulation Bool Unit Unit Nat Unit Unit Nat) : Option (Simulation Bool Unit Unit Nat Unit Unit Nat) :=
  restarting.simulate .checked (fun s l => Network.WithinCounts s.toNetState l ∧ Network.Fires false () s.control)
    [false, true] 16 [] s

end restarting

namespace Network

/-- The actor that fires leaves its initial state, and its second port writes to the channel that was reset. -/
theorem reset_firing_overruled : ∃ (chans : Unit → FifoChan Nat Bool) (s₀ s : Simulation Bool Unit Unit Nat Unit Unit Nat),
    restarting.Elaborated .checked chans ∧
      Relation.ReflTransGen (restarting.StepOf .checked fun s l => WithinCounts s.toNetState l) (start chans fun _ => ()) s₀ ∧
      s₀.control = .acting false () ∧
      Relation.ReflTransGen (restarting.StepOf .checked fun s l => WithinCounts s.toNetState l ∧ Fires false () s.control) s₀ s ∧
      s.control = .polling false ∧ (∃ info ∈ (restarting.rule false ()).portOutInfos, .inr () ∈ info.port) ∧
      .inr false ∈ restarting.resets () ∧ (s.nodes false).currentState ≠ some (restarting.initialState false) ∧
      .inl (.inl ()) ∈ restarting.resets () ∧ (s.chans ()).contents ≠ (chans ()).initialTokens.map some := by
  have hrun : (restarting.chan.any fun ch => (restarting.before ch).any fun s₀ => (restarting.after s₀).any fun s =>
      decide (Fires false () s₀.control ∧ s₀.control.mayCall = true ∧ s.control.polls = some false ∧
        (s.nodes false).currentState ≠ some 0 ∧ (s.chans ()).contents ≠ ch.initialTokens.map some)) = true := by
    decide +kernel
  obtain ⟨ch, hch, hrun⟩ := (Option.any_eq_true _ _).mp hrun
  obtain ⟨s₀, hs₀, hrun⟩ := (Option.any_eq_true _ _).mp hrun
  obtain ⟨s, hs, hrun⟩ := (Option.any_eq_true _ _).mp hrun
  obtain ⟨hf, hcall, hpolls, hq, hcontents⟩ := of_decide_eq_true hrun
  have hport : ∃ info ∈ (restarting.rule false ()).portOutInfos, .inr () ∈ info.port :=
    ⟨⟨[.inr ()], 1, 1⟩, List.mem_cons_self, List.mem_singleton.mpr rfl⟩
  exact ⟨_, s₀, s, restarting.elaborated hch, simulate_reaches hs₀, hf.acting hcall, simulate_reaches hs,
    Control.eq_polling hpolls, hport, by simp [resets, restarting, ResetNode.doResetAll, ResetNode.doReset], hq,
    by simp [resets, restarting], hcontents⟩

/-- The other actor is in its initial state, and the channel has its token and the one written last. -/
theorem reset_firing_restarting : ∃ (chans : Unit → FifoChan Nat Bool) (s : Simulation Bool Unit Unit Nat Unit Unit Nat)
    (ts : List (Option Nat)), restarting.Elaborated .checked chans ∧ (s.nodes false).currentState = some 1 ∧
      (s.nodes true).currentState = some 0 ∧
      restarting.lateCommits (restarting.rule false ()).portOutInfos () = some ts.length ∧
      (s.chans ()).contents = (chans ()).initialTokens.map some ++ ts := by
  have hrun : (restarting.chan.any fun ch => (restarting.before ch).any fun s₀ => (restarting.after s₀).any fun s =>
      decide (Fires false () s₀.control ∧ s₀.control.mayCall = true ∧ s.control.polls = some false)) = true := by
    decide +kernel
  obtain ⟨ch, hch, hrun⟩ := (Option.any_eq_true _ _).mp hrun
  obtain ⟨s₀, hs₀, hrun⟩ := (Option.any_eq_true _ _).mp hrun
  obtain ⟨s, hs, hrun⟩ := (Option.any_eq_true _ _).mp hrun
  obtain ⟨hf, hcall, hpolls⟩ := of_decide_eq_true hrun
  have helab := restarting.elaborated hch
  obtain ⟨⟨hq, _⟩, hreset⟩ := reset_firing restarting .checked helab (simulate_reaches hs₀) (hf.acting hcall)
    (simulate_reaches hs) (Control.eq_polling hpolls)
  obtain ⟨hnodes, hchans⟩ := hreset ⟨[.inr ()], 1, 1⟩ List.mem_cons_self () (List.mem_singleton.mpr rfl)
  obtain ⟨hq', _⟩ := hnodes true (by simp [resets, restarting, ResetNode.doResetAll, ResetNode.doReset]) (by decide)
  obtain ⟨ts, hts, hcontents⟩ := hchans () (by simp [resets, restarting])
  exact ⟨_, s, ts, helab, hq, hq', hts, hcontents⟩

end Network

end SysteMoC
