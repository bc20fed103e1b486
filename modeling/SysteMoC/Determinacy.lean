import SysteMoC.DataflowConfluent
import SysteMoC.NetworkDataflow

/-!
# Results that do not depend on the scheduling

What a simulation has done when it is quiet is what the dataflow net does, in whatever
order listeners are told and requests are served.
-/

namespace SysteMoC

structure Simulation.Quiet {A K Z Q T V D : Type} (s : Simulation A K Z Q T V D) : Prop where
  control : s.control = .idle
  settled : s.Settled
  request : ∀ a, s.request a = false

instance {A K Z Q T V D : Type} [Fintype A] [DecidableEq K] [DecidableEq Z] (s : Simulation A K Z Q T V D) : Decidable s.Quiet :=
  decidable_of_iff (s.control.isIdle = true ∧ s.Settled ∧ ∀ a, s.request a = false)
    ⟨fun h => ⟨Control.eq_idle h.1, h.2.1, h.2.2⟩, fun h => ⟨by rw [h.control]; rfl, h.settled, h.request⟩⟩

namespace Network

variable {A K Z Q T V D : Type} [DecidableEq A] [DecidableEq K] [DecidableEq Z] [DecidableEq Q] [DecidableEq T] [Token D]
  [Fintype A] {net : Network A K Z Q T V D} {b : Build} {chans chans' : K → FifoChan D Bool} {vars : A → V}
  {s s' : Simulation A K Z Q T V D} {m m' : Marking A K Q V D} {w : List (Move A K T)} {fs fs' : List (A × T)}
  {rs rs' : List (Move A K T)} {depth depth' : K → Nat} {initial : K → List D}

theorem Run.final (hreg : net.Regular) (hbuilt : net.Elaborated b chans) (hr : Run net b (Network.start chans vars) w s)
    (hq : s.Quiet)
    (hd : ∀ a, (s.nodes a).callbackDriven = true) :
    ∃ m, Persistent.exec (net.move (fun k => (chans k).depthCount) fun k => (chans k).initialTokens) w (.start vars) = some m ∧
      Shows s.toNetState m ∧ Persistent.Final (net.firing fun k => (chans k).depthCount) m := by
  obtain ⟨hinv, htold, m, hm, h⟩ := hr.refines hreg hbuilt
  have hc : s.control.isExecuting = false := by rw [hq.control]; rfl
  refine ⟨m, hm, h.shows hq.settled.1 hc, fun f => ?_⟩
  have hx : (s.nodes f.1).executing = false := by
    rw [← Bool.not_eq_true, hinv.executing, hq.control]
    exact id
  refine if_neg fun hchoice => ?_
  rw [← h.find_eq (b := b) hbuilt.requested hreg hq.settled.1 hc] at hchoice
  obtain ⟨q, hcur, hfind⟩ := Option.bind_eq_some_iff.mp hchoice
  have hct := hinv.ct_eq hq.settled hx (hd f.1) hcur
  rcases (htold.actor f.1).requested hx (hd f.1) (by rw [hct, hfind]; rfl) with hreq | hpoll
  · rw [hq.request] at hreq
    cases hreq
  · rw [hq.control] at hpoll
    cases hpoll

/-! ## Resets before firings -/

omit [DecidableEq Q] [Token D] [Fintype A] in
/-- Resets can be made in any order. -/
theorem exec_resets (hrs : ∀ mv ∈ rs, mv.fired = none) (hperm : rs.Perm rs') :
    Persistent.exec (net.move depth initial) rs m = Persistent.exec (net.move depth initial) rs' m := by
  refine Persistent.exec_perm hperm (fun mv hmv mv' hmv' m => ?_) m
  have h := hrs mv hmv
  have h' := hrs mv' hmv'
  cases mv with
  | fire => cases h
  | resetChan k =>
    cases mv' with
    | fire => cases h'
    | resetNode a => rfl
    | resetChan k' =>
      by_cases hk : k = k'
      · rw [hk]
      · simp only [move, Option.bind_some]
        rw [Function.update_comm hk]
  | resetNode a =>
    cases mv' with
    | fire => cases h'
    | resetChan k => rfl
    | resetNode a' =>
      by_cases ha : a = a'
      · rw [ha]
      · simp only [move, Option.bind_some, Function.update_of_ne ha, Function.update_of_ne (Ne.symm ha)]
        rw [Function.update_comm ha, Function.update_comm ha]

omit [DecidableEq Q] [Token D] [Fintype A] in
theorem exec_resets_depth (depth depth' : K → Nat) (hrs : ∀ mv ∈ rs, mv.fired = none) :
    Persistent.exec (net.move depth initial) rs m = Persistent.exec (net.move depth' initial) rs m := by
  induction rs generalizing m with
  | nil => rfl
  | cons mv rs ih =>
    have hmv := hrs mv List.mem_cons_self
    have hrest : ∀ m, Persistent.exec (net.move depth initial) rs m = Persistent.exec (net.move depth' initial) rs m := fun _ =>
      ih fun mv hmv => hrs mv (List.mem_cons_of_mem _ hmv)
    cases mv with
    | fire => cases hmv
    | resetChan k => exact hrest _
    | resetNode a => exact hrest _

omit [DecidableEq Q] [Token D] [Fintype A] in
theorem exec_script (h : Persistent.exec (net.move depth initial) (rs ++ fs.map fun f => .fire f.1 f.2) m = some m') :
    ∃ m₀, Persistent.exec (net.move depth initial) rs m = some m₀ ∧ Persistent.exec (net.firing depth) fs m₀ = some m' := by
  rw [Persistent.exec_append] at h
  obtain ⟨m₀, h₀, h⟩ := Option.bind_eq_some_iff.mp h
  refine ⟨m₀, h₀, ?_⟩
  rw [Persistent.exec, List.foldlM_map] at h
  exact h

/-! ## Runs of the scheduler -/

def record (net : Network A K Z Q T V D) (b : Build) (actors : List A) :
    Nat → List ((K ⊕ Z) ⊕ A) → List (Move A K T) → Simulation A K Z Q T V D → Option (List (Move A K T) × Simulation A K Z Q T V D)
  | 0, _, w, s => some (w, s)
  | fuel + 1, resets, w, s =>
    match net.next actors resets s with
    | none => some (w, s)
    | some (l, resets) => (net.step b s l).bind (record net b actors fuel resets (w ++ emits s.toNetState l))

omit [DecidableEq T] in
theorem run_record {actors : List A} {s₀ : Simulation A K Z Q T V D} {fuel : Nat} : ∀ {resets : List ((K ⊕ Z) ⊕ A)}
    {w : List (Move A K T)} {s : Simulation A K Z Q T V D}, Run net b s₀ w s → ∀ {r},
    net.record b actors fuel resets w s = some r → Run net b s₀ r.1 r.2 := by
  induction fuel with
  | zero =>
    intro resets w s hr r h
    cases h
    exact hr
  | succ fuel ih =>
    intro resets w s hr r h
    rw [record] at h
    split at h
    · cases h
      exact hr
    · obtain ⟨s₁, hs, h⟩ := Option.bind_eq_some_iff.mp h
      exact ih (hr.step hs) h

end Network

namespace feeding

theorem pointToPoint : feeding.PointToPoint (fun _ => true) fun _ => false where
  reads a t := by cases a <;> simp [feeding, Guard.inputs]
  writes a t := by cases a <;> simp [feeding, Guard.outputs]

theorem stable {depth depth' : Unit → Nat} : feeding.Stable depth depth' :=
  Network.stable_of_waiter fun _ _ _ _ _ _ => rfl

def recorded (fuel n : Nat) (l : List Nat) (actors : List Bool) (resets : List ((Unit ⊕ Empty) ⊕ Bool)) :
    Option (FifoChan Nat Bool × List (Move Bool Unit Nat) × Simulation Bool Unit Empty Nat Nat Nat Nat) :=
  (chan n l).bind fun ch =>
    (feeding.record .checked actors fuel resets [] (Network.start (fun _ => ch) fun _ => 0)).map fun r => (ch, r)

theorem run_recorded {fuel n : Nat} {l : List Nat} {actors : List Bool} {resets : List ((Unit ⊕ Empty) ⊕ Bool)}
    {ch : FifoChan Nat Bool} {w : List (Move Bool Unit Nat)} {s : Simulation Bool Unit Empty Nat Nat Nat Nat}
    (h : recorded fuel n l actors resets = some (ch, w, s)) : chan n l = some ch ∧
      Network.Run feeding .checked (Network.start (fun _ => ch) fun _ => 0) w s := by
  rw [recorded] at h
  obtain ⟨ch₁, hch, h⟩ := Option.bind_eq_some_iff.mp h
  obtain ⟨r, hr, h⟩ := Option.map_eq_some_iff.mp h
  cases h
  exact ⟨hch, Network.run_record .start hr⟩

theorem quiet_recorded (n : Nat) (l : List Nat) (actors : List Bool) (resets : List ((Unit ⊕ Empty) ⊕ Bool))
    (w : List (Move Bool Unit Nat)) (sum : Nat) (hl : l.length ≤ n) (h : ((recorded 80 n l actors resets).any fun r =>
      decide (r.2.1 = w ∧ r.2.2.Quiet ∧ (∀ a, (r.2.2.nodes a).callbackDriven = true) ∧ r.2.2.vars true = sum)) = true) :
    ∃ ch s, chan n l = some ch ∧ feeding.Elaborated .checked (fun _ => ch) ∧
      Network.Run feeding .checked (Network.start (fun _ => ch) fun _ => 0) w s ∧ s.Quiet ∧
      (∀ a, (s.nodes a).callbackDriven = true) ∧ s.vars true = sum := by
  obtain ⟨⟨ch, w', s⟩, hrec, h⟩ := (Option.any_eq_true _ _).mp h
  obtain ⟨rfl, hq, hd, hsum⟩ := of_decide_eq_true h
  obtain ⟨hch, hr⟩ := run_recorded hrec
  exact ⟨ch, s, hch, elaborated hl hch, hr, hq, hd, hsum⟩

end feeding

namespace Network

variable {A K Z Q T V D : Type} [DecidableEq A] [DecidableEq K] [DecidableEq Z] [DecidableEq Q] [DecidableEq T] [Token D]
  [Fintype A] {net : Network A K Z Q T V D} {m m' : Marking A K Q V D} {fs : List (A × T)} {depth depth' : K → Nat}

omit [DecidableEq Q] [Token D] [Fintype A] in
/-- What is fired after the same resets leads to one end, of which it is a part before. -/
theorem PointToPoint.agrees {initial : K → List D} {m₀ : Marking A K Q V D} {rs rs' : List (Move A K T)} {fs' : List (A × T)}
    {reader writer : K → A} (hp : net.PointToPoint reader writer) (hreg : net.Regular) (hstable : net.Stable depth depth)
    (hrs : ∀ mv ∈ rs, mv.fired = none) (hperm : rs'.Perm rs)
    (hm : Persistent.exec (net.move depth initial) (rs ++ fs.map fun f => .fire f.1 f.2) m₀ = some m)
    (hfinal : Persistent.Final (net.firing depth) m)
    (hm' : Persistent.exec (net.move depth initial) (rs' ++ fs'.map fun f => .fire f.1 f.2) m₀ = some m') :
    fs'.Subperm fs ∧ (Persistent.Final (net.firing depth) m' → fs'.Perm fs ∧ m' = m) := by
  obtain ⟨m₁, hresets, hfires⟩ := exec_script hm
  obtain ⟨m₁', hresets', hfires'⟩ := exec_script hm'
  -- both have made the same resets
  rw [← exec_resets hrs hperm.symm, hresets, Option.some.injEq] at hresets'
  subst hresets'
  have hdiamond := hp.diamond hreg hstable
  exact ⟨(hdiamond.rest hfires hfinal hfires').1, fun hfinal' => hdiamond.final_unique hfires hfinal hfires' hfinal'⟩

omit [DecidableEq A] [DecidableEq K] [DecidableEq Z] [DecidableEq Q] [DecidableEq T] [Token D] [Fintype A] in
theorem Shows.agrees {s s' : NetState A K Z Q T V D} (h : Shows s m) (h' : Shows s' m) :
    (∀ k, (s'.chans k).contents = (s.chans k).contents) ∧
      (∀ a, (s'.nodes a).currentState = (s.nodes a).currentState) ∧ s'.vars = s.vars := by
  refine ⟨fun k => ?_, fun a => ?_, ?_⟩
  · rw [h'.contents, h.contents]
  · rw [h'.state, h.state]
  · rw [h'.vars, h.vars]

/-- A simulation fires nothing that a quiet one after the same resets has not fired. -/
theorem Run.subperm {b : Build} {chans : K → FifoChan D Bool} {vars : A → V} {s s' : Simulation A K Z Q T V D}
    {rs rs' : List (Move A K T)} {fs' : List (A × T)} {reader writer : K → A} (hreg : net.Regular)
    (hp : net.PointToPoint reader writer) (hstable : net.Stable (fun k => (chans k).depthCount) fun k => (chans k).depthCount)
    (hbuilt : net.Elaborated b chans) (hrs : ∀ mv ∈ rs, mv.fired = none) (hperm : rs'.Perm rs)
    (hr : Run net b (Network.start chans vars) (rs ++ fs.map fun f => .fire f.1 f.2) s) (hq : s.Quiet)
    (hd : ∀ a, (s.nodes a).callbackDriven = true)
    (hr' : Run net b (Network.start chans vars) (rs' ++ fs'.map fun f => .fire f.1 f.2) s') : fs'.Subperm fs := by
  obtain ⟨m, hm, _, hfinal⟩ := hr.final hreg hbuilt hq hd
  obtain ⟨_, _, m', hm', _⟩ := hr'.refines hreg hbuilt
  exact (hp.agrees hreg hstable hrs hperm hm hfinal hm').1

/-! ## Results -/

/-- Two simulations that are quiet after the same resets have fired the same transitions and hold the
same tokens, states and variables; a simulation that is not quiet yet has fired no other ones. -/
theorem determinate (net : Network A K Z Q T V D) (b : Build) {chans : K → FifoChan D Bool} {vars : A → V}
    {s s' : Simulation A K Z Q T V D} {rs rs' : List (Move A K T)} {fs fs' : List (A × T)} {reader writer : K → A}
    (hreg : net.Regular) (hp : net.PointToPoint reader writer)
    (hstable : net.Stable (fun k => (chans k).depthCount) fun k => (chans k).depthCount) (hbuilt : net.Elaborated b chans)
    (hrs : ∀ mv ∈ rs, mv.fired = none) (hperm : rs'.Perm rs)
    (hr : Run net b (start chans vars) (rs ++ fs.map fun f => .fire f.1 f.2) s)
    (hq : s.Quiet) (hd : ∀ a, (s.nodes a).callbackDriven = true)
    (hr' : Run net b (start chans vars) (rs' ++ fs'.map fun f => .fire f.1 f.2) s') :
    fs'.Subperm fs ∧ (s'.Quiet → (∀ a, (s'.nodes a).callbackDriven = true) → fs'.Perm fs ∧
      (∀ k, (s'.chans k).contents = (s.chans k).contents) ∧
      (∀ a, (s'.nodes a).currentState = (s.nodes a).currentState) ∧ s'.vars = s.vars) := by
  refine ⟨hr.subperm hreg hp hstable hbuilt hrs hperm hq hd hr', fun hq' hd' => ?_⟩
  obtain ⟨m, hm, hshows, hfinal⟩ := hr.final hreg hbuilt hq hd
  obtain ⟨m', hm', hshows', hfinal'⟩ := hr'.final hreg hbuilt hq' hd'
  obtain ⟨hperm', rfl⟩ := (hp.agrees hreg hstable hrs hperm hm hfinal hm').2 hfinal'
  exact ⟨hperm', hshows.agrees hshows'⟩

theorem determinate_feeding : ∃ s s' : Simulation Bool Unit Empty Nat Nat Nat Nat,
    s.vars true = 15 ∧ (∀ k, (s'.chans k).contents = (s.chans k).contents) ∧ s'.vars = s.vars := by
  obtain ⟨ch, s, hch, hbuilt, hr, hq, hd, hsum⟩ := feeding.quiet_recorded 2 [4] [false, true]
    [.inl (.inl ()), .inr false, .inr true] ([.resetChan (), .resetNode false, .resetNode true] ++
      [(false, 0), (true, 0), (true, 0), (false, 1), (true, 0)].map fun f => .fire f.1 f.2) 15 (by decide) (by decide +kernel)
  obtain ⟨ch', s', hch', _, hr', hq', hd', _⟩ := feeding.quiet_recorded 2 [4] [true, false]
    [.inr true, .inr false, .inl (.inl ())] ([.resetNode true, .resetNode false, .resetChan ()] ++
      [(true, 0), (false, 0), (false, 1), (true, 0), (true, 0)].map fun f => .fire f.1 f.2) 15 (by decide) (by decide +kernel)
  rw [hch, Option.some.injEq] at hch'
  subst hch'
  obtain ⟨_, hsame⟩ := determinate feeding .checked feeding.regular feeding.pointToPoint feeding.stable hbuilt
    (by simp [Move.fired]) (by decide) hr hq hd hr'
  obtain ⟨_, hchans, _, hvars⟩ := hsame hq' hd'
  exact ⟨s, s', hsum, hchans, hvars⟩

omit [DecidableEq Q] [Token D] [Fintype A] in
/-- What fires fires as well where channels are larger. -/
theorem exec_larger (hstable : net.Stable depth depth') (hle : ∀ k, depth k ≤ depth' k)
    (h : Persistent.exec (net.firing depth) fs m = some m') : Persistent.exec (net.firing depth') fs m = some m' := by
  induction fs generalizing m with
  | nil => exact h
  | cons f fs ih =>
    rw [Persistent.exec_cons] at h
    obtain ⟨m₁, hf, h⟩ := Option.bind_eq_some_iff.mp h
    obtain ⟨hchoice, heq⟩ := firing_eq_some.mp hf
    have hgrows : Grows net depth depth' f.1 m m :=
      ⟨rfl, rfl, fun _ _ _ l hl => ⟨[], by rw [List.append_nil]; exact hl⟩, fun _ _ _ k _ l hl => ⟨l, hl, by
        have := hle k
        omega⟩⟩
    rw [Persistent.exec_cons_of (firing_eq_some.mpr ⟨hstable _ _ _ _ hgrows hchoice, heq⟩)]
    exact ih h

/-- Larger channels cost no firings: with the same initial tokens, what is fired before channels
are enlarged is fired after it. -/
theorem larger_fires_more (net : Network A K Z Q T V D) (b b' : Build) {chans chans' : K → FifoChan D Bool} {vars : A → V}
    {s s' : Simulation A K Z Q T V D} {rs rs' : List (Move A K T)} {fs fs' : List (A × T)} {reader writer : K → A}
    (hreg : net.Regular) (hp : net.PointToPoint reader writer)
    (hstable : net.Stable (fun k => (chans k).depthCount) fun k => (chans' k).depthCount)
    (hstable' : net.Stable (fun k => (chans' k).depthCount) fun k => (chans' k).depthCount) (hbuilt : net.Elaborated b chans)
    (hbuilt' : net.Elaborated b' chans') (hinit : ∀ k, (chans' k).initialTokens = (chans k).initialTokens)
    (hle : ∀ k, (chans k).depthCount ≤ (chans' k).depthCount) (hrs : ∀ mv ∈ rs, mv.fired = none) (hperm : rs'.Perm rs)
    (hr : Run net b (start chans vars) (rs ++ fs.map fun f => .fire f.1 f.2) s)
    (hr' : Run net b' (start chans' vars) (rs' ++ fs'.map fun f => .fire f.1 f.2) s') (hq' : s'.Quiet)
    (hd' : ∀ a, (s'.nodes a).callbackDriven = true) : fs.Subperm fs' := by
  obtain ⟨_, _, m, hm, _⟩ := hr.refines hreg hbuilt
  obtain ⟨m₀, hresets, hfires⟩ := exec_script hm
  obtain ⟨m', hm', _, hfinal⟩ := hr'.final hreg hbuilt' hq' hd'
  obtain ⟨m₀', hresets', hfires'⟩ := exec_script hm'
  rw [funext hinit, ← exec_resets hrs hperm.symm, ← exec_resets_depth (fun k => (chans k).depthCount) _ hrs, hresets,
    Option.some.injEq] at hresets'
  subst hresets'
  exact ((hp.diamond hreg hstable').rest hfires' hfinal (exec_larger hstable hle hfires)).1

theorem larger_fires_more_feeding : ∃ (chans chans' : Unit → FifoChan Nat Bool),
    (chans ()).depthCount = 1 ∧ (chans' ()).depthCount = 2 ∧
      [(true, 0), (false, 0), (true, 0), (false, 1), (true, 0)].Subperm
        [(false, 0), (true, 0), (true, 0), (false, 1), (true, 0)] := by
  obtain ⟨ch, s, hch, hbuilt, hr, _⟩ := feeding.quiet_recorded 1 [4] [true, false]
    [.inr true, .inr false, .inl (.inl ())] ([.resetNode true, .resetNode false, .resetChan ()] ++
      [(true, 0), (false, 0), (true, 0), (false, 1), (true, 0)].map fun f => .fire f.1 f.2) 15 (by decide) (by decide +kernel)
  obtain ⟨ch', s', hch', hbuilt', hr', hq', hd', _⟩ := feeding.quiet_recorded 2 [4] [false, true]
    [.inl (.inl ()), .inr false, .inr true] ([.resetChan (), .resetNode false, .resetNode true] ++
      [(false, 0), (true, 0), (true, 0), (false, 1), (true, 0)].map fun f => .fire f.1 f.2) 15 (by decide) (by decide +kernel)
  obtain ⟨hdepth, hinit⟩ := feeding.chan_sized (by decide) hch
  obtain ⟨hdepth', hinit'⟩ := feeding.chan_sized (by decide) hch'
  exact ⟨fun _ => ch, fun _ => ch', hdepth, hdepth', larger_fires_more feeding .checked .checked feeding.regular
    feeding.pointToPoint feeding.stable feeding.stable hbuilt hbuilt' (fun _ => by rw [hinit, hinit'])
    (fun _ => by rw [hdepth, hdepth']; decide) (by simp [Move.fired]) (by decide) hr hr' hq' hd'⟩

/-- Since its last reset a channel has got the tokens that were appended to it, and has lost those that were
taken; there are never more than fit. -/
theorem tokens_accounted (net : Network A K Z Q T V D) (b : Build) {chans : K → FifoChan D Bool} {vars : A → V}
    {s : Simulation A K Z Q T V D} {w w' : List (Move A K T)} {k : K} (hreg : net.Regular) (hbuilt : net.Elaborated b chans)
    (hr : Run net b (start chans vars) (w ++ .resetChan k :: w') s) (hk : .resetChan k ∉ w') (hs : s.calls = [])
    (hc : s.control.isExecuting = false) :
    FifoOutlet.numAvailable (s.chans k) + net.taken w' k = (chans k).initialTokens.length + net.appended w' k ∧
      FifoOutlet.numAvailable (s.chans k) ≤ (chans k).depthCount := by
  obtain ⟨_, _, m, hm, h⟩ := hr.refines hreg hbuilt
  have hshows := h.shows hs hc
  have hfits := length_le_exec hreg (fun k => by
    obtain ⟨n, l, rs, hl, hreq, _⟩ := hbuilt k
    obtain ⟨hunused, hinit, _⟩ := FifoChan.unused_requests hl hreq
    rw [hinit, QueueRWPtr.depthCount, hunused.fsize_eq]
    exact hl) hm (by rintro k l ⟨⟩)
  rw [Persistent.exec_append] at hm
  obtain ⟨m₁, _, hm⟩ := Option.bind_eq_some_iff.mp hm
  rw [Persistent.exec_cons] at hm
  obtain ⟨l, hl, hlen⟩ := length_exec hreg hm hk (Function.update_self _ _ _)
  rw [hshows.available, hl]
  exact ⟨hlen, hfits k l hl⟩

theorem tokens_accounted_feeding : ∃ (chans : Unit → FifoChan Nat Bool) (s : Simulation Bool Unit Empty Nat Nat Nat Nat),
    s.vars true = 15 ∧ FifoOutlet.numAvailable (s.chans ()) + 3 = 1 + 2 ∧
      FifoOutlet.numAvailable (s.chans ()) ≤ (chans ()).depthCount := by
  obtain ⟨ch, s, hch, hbuilt, hr, hq, _, hsum⟩ := feeding.quiet_recorded 2 [4] [false, true]
    [.inl (.inl ()), .inr false, .inr true] ([] ++ .resetChan () :: ([.resetNode false, .resetNode true] ++
      [(false, 0), (true, 0), (true, 0), (false, 1), (true, 0)].map fun f => .fire f.1 f.2)) 15 (by decide) (by decide +kernel)
  obtain ⟨hcount, hfits⟩ := tokens_accounted feeding .checked feeding.regular hbuilt hr (by simp) hq.settled.1
    (by rw [hq.control]; rfl)
  obtain ⟨_, hinit⟩ := feeding.chan_sized (by decide) hch
  rw [hinit] at hcount
  exact ⟨fun _ => ch, s, hsum, hcount, hfits⟩

end Network

end SysteMoC
