import SysteMoC.GeneratorRates

/-!
# Sources, inputs and outputs

Which actors get a channel from the source actor, an input and an output, and that the
vertex that `vdSource` names gets none of them.
-/

namespace SysteMoC.SNG

open Drawing

namespace Graph

/-- `e` is read from a channel of its own that `vdSource` writes. -/
structure FromSource (n vdSource : Nat) (g : Graph) (e : Edge) : Prop where
  new : n ≤ e.source
  fifo : ∃ name t c d, g.vertices[e.source]? = some ⟨name, .fifo t c d⟩
  written : ∃ e', g.inEdges e.source = [e'] ∧ e'.source = vdSource
  read : g.outEdges e.source = [e]

structure FromInput (n : Nat) (g : Graph) (e : Edge) : Prop where
  new : n ≤ e.source
  register : ∃ name t, g.vertices[e.source]? = some ⟨name, .register t⟩
  written : g.inEdges e.source = []
  read : g.outEdges e.source = [e]

structure ToOutput (n : Nat) (g : Graph) (e : Edge) : Prop where
  new : n ≤ e.target
  register : ∃ name t, g.vertices[e.target]? = some ⟨name, .register t⟩
  written : g.inEdges e.target = [e]
  read : g.outEdges e.target = []

/-- The actors without edges play the role, or one actor if there are none. -/
def Plays (g : Graph) (edges : Nat → List Edge) (l : List Nat) : Prop :=
  (∃ v, g.IsActor v ∧ edges v = []) ∧ (∀ v, v ∈ l ↔ g.IsActor v ∧ edges v = []) ∨
    (∀ v, g.IsActor v → edges v ≠ []) ∧ ∃ v, g.IsActor v ∧ l = [v]

/-- One vertex more, with edges between it and the first `n` vertices. -/
structure Adds (n : Nat) (g g' : Graph) (vi : VertexInfo) (es : List Edge) : Prop where
  vertices : g'.vertices = g.vertices ++ [vi]
  edges : g'.edges = g.edges ++ es
  ends : ∀ e ∈ es, (e.source < n ∨ e.source = g.vertices.length) ∧ (e.target < n ∨ e.target = g.vertices.length)

section
variable {n v vdSource : Nat} {g g' : Graph} {vi : VertexInfo} {es : List Edge} {e : Edge}

theorem Adds.vertex (h : Adds n g g' vi es) (hv : v < g.vertices.length) : g'.vertices[v]? = g.vertices[v]? := by
  rw [h.vertices, List.getElem?_append_left hv]

theorem Adds.between (h : Adds n g g' vi es) (hn : n ≤ v) (hv : v < g.vertices.length) :
    g'.inEdges v = g.inEdges v ∧ g'.outEdges v = g.outEdges v := by
  refine ⟨inEdges_elsewhere h.edges fun e he => ?_, outEdges_elsewhere h.edges fun e he => ?_⟩
  · have := (h.ends e he).2
    omega
  · have := (h.ends e he).1
    omega

theorem Adds.closed (h : Adds n g g' vi es) (hclosed : g.Closed) (hn : n ≤ g.vertices.length) : g'.Closed := by
  intro e he
  rw [h.vertices, List.length_append, List.length_singleton]
  rw [h.edges, List.mem_append] at he
  obtain he | he := he
  · have := hclosed e he
    omega
  · have := h.ends e he
    omega

theorem lt_of_vertex (h : g.vertices[v]? = some vi) : v < g.vertices.length := (List.getElem?_eq_some_iff.mp h).1

theorem FromSource.adds (he : g.FromSource n vdSource e) (h : Adds n g g' vi es) : g'.FromSource n vdSource e := by
  obtain ⟨hnew, ⟨name, t, c, d, hvi⟩, hwritten, hread⟩ := he
  have hlt := lt_of_vertex hvi
  obtain ⟨hin, hout⟩ := h.between hnew hlt
  exact ⟨hnew, ⟨name, t, c, d, by rw [h.vertex hlt, hvi]⟩, by rw [hin]; exact hwritten, by rw [hout, hread]⟩

theorem FromInput.adds (he : g.FromInput n e) (h : Adds n g g' vi es) : g'.FromInput n e := by
  obtain ⟨hnew, ⟨name, t, hvi⟩, hwritten, hread⟩ := he
  have hlt := lt_of_vertex hvi
  obtain ⟨hin, hout⟩ := h.between hnew hlt
  exact ⟨hnew, ⟨name, t, by rw [h.vertex hlt, hvi]⟩, by rw [hin, hwritten], by rw [hout, hread]⟩

theorem ToOutput.adds (he : g.ToOutput n e) (h : Adds n g g' vi es) : g'.ToOutput n e := by
  obtain ⟨hnew, ⟨name, t, hvi⟩, hwritten, hread⟩ := he
  have hlt := lt_of_vertex hvi
  obtain ⟨hin, hout⟩ := h.between hnew hlt
  exact ⟨hnew, ⟨name, t, by rw [h.vertex hlt, hvi]⟩, by rw [hin, hwritten], by rw [hout, hread]⟩

end

/-- What has been added to `b`: channels from `vdSource` to the actors `srcs`, inputs of
`inps` and outputs of `outs`. -/
structure Ends (vdSource : Nat) (b g : Graph) (srcs inps outs : List Nat) : Prop where
  closed : g.Closed
  size : b.vertices.length ≤ g.vertices.length
  old : ∀ v < b.vertices.length, g.vertices[v]? = b.vertices[v]?
  inEdges : ∀ v < b.vertices.length, ∃ cs rs, g.inEdges v = b.inEdges v ++ cs ++ rs ∧ cs.length = srcs.count v ∧
    rs.length = inps.count v ∧ (∀ e ∈ cs, g.FromSource b.vertices.length vdSource e) ∧
    ∀ e ∈ rs, g.FromInput b.vertices.length e
  outEdges : ∀ v < b.vertices.length, (srcs = [] ∨ v ≠ vdSource) → ∃ ws, g.outEdges v = b.outEdges v ++ ws ∧
    ws.length = outs.count v ∧ ∀ e ∈ ws, g.ToOutput b.vertices.length e
  fires : ∀ v ∈ srcs, b.repCount? v ≠ some 0

section
variable {vdSource v : Nat} {b g g' : Graph} {srcs inps outs : List Nat} {vi : VertexInfo} {ei ei' : EdgeInfo}

theorem Ends.refl (h : b.Closed) : Ends vdSource b b [] [] [] where
  closed := h
  size := Nat.le_refl _
  old _ _ := rfl
  inEdges _ _ := ⟨[], [], by simp⟩
  outEdges _ _ _ := ⟨[], by simp⟩
  fires _ hv := (List.not_mem_nil hv).elim

theorem Ends.repCount? (h : Ends vdSource b g srcs inps outs) (hv : v < b.vertices.length) : g.repCount? v = b.repCount? v := by
  unfold Graph.repCount?
  rw [h.old v hv]

theorem Ends.isActor (h : Ends vdSource b g srcs inps outs) (hv : v < b.vertices.length) : g.IsActor v ↔ b.IsActor v := by
  unfold IsActor
  rw [h.repCount? hv]

theorem Ends.inEdges_same (h : Ends vdSource b g srcs inps outs) (hv : v < b.vertices.length) (hsrcs : v ∉ srcs)
    (hinps : v ∉ inps) : g.inEdges v = b.inEdges v := by
  obtain ⟨cs, rs, heq, hcs, hrs, -⟩ := h.inEdges v hv
  rw [List.count_eq_zero.mpr hsrcs, List.length_eq_zero_iff] at hcs
  rw [List.count_eq_zero.mpr hinps, List.length_eq_zero_iff] at hrs
  simpa [hcs, hrs] using heq

theorem Ends.outEdges_same (h : Ends vdSource b g srcs inps outs) (hv : v < b.vertices.length)
    (hne : srcs = [] ∨ v ≠ vdSource) (houts : v ∉ outs) : g.outEdges v = b.outEdges v := by
  obtain ⟨ws, heq, hws, -⟩ := h.outEdges v hv hne
  rw [List.count_eq_zero.mpr houts, List.length_eq_zero_iff] at hws
  simpa [hws] using heq

/-- A channel to an actor that has no input yet. -/
theorem Ends.source (h : Ends vdSource b g srcs inps outs) (hsource : vdSource < b.vertices.length)
    (hv : v < b.vertices.length) (hinps : v ∉ inps) (hfires : b.repCount? v ≠ some 0)
    (hfifo : ∃ name t c d, vi = ⟨name, .fifo t c d⟩)
    (hadds : Adds b.vertices.length g g' vi
      [⟨ei, vdSource, g.vertices.length⟩, ⟨ei', g.vertices.length, v⟩]) :
    Ends vdSource b g' (srcs ++ [v]) inps outs := by
  have hsize := h.size
  refine ⟨hadds.closed h.closed hsize, by rw [hadds.vertices]; simp; omega, fun w hw => ?_, fun w hw => ?_, fun w hw hne => ?_,
    fun w hw => ?_⟩
  · rw [hadds.vertex (by omega), h.old w hw]
  · obtain ⟨cs, rs, heq, hcs, hrs, hsrc, hinp⟩ := h.inEdges w hw
    have hrs' := fun e he => (hinp e he).adds hadds
    have hcs' := fun e he => (hsrc e he).adds hadds
    by_cases hvw : v = w
    · subst hvw
      rw [List.count_eq_zero.mpr hinps, List.length_eq_zero_iff] at hrs
      subst hrs
      refine ⟨cs ++ [⟨ei', g.vertices.length, v⟩], [], ?_, ?_, ?_, fun e he => ?_, by simp⟩
      · rw [inEdges_append hadds.edges, heq]
        simp [show g.vertices.length ≠ v by omega]
      · simp [hcs]
      · rw [List.count_eq_zero.mpr hinps, List.length_nil]
      · rw [List.mem_append, List.mem_singleton] at he
        obtain he | rfl := he
        · exact hcs' e he
        · obtain ⟨name, t, c, d, rfl⟩ := hfifo
          refine ⟨hsize, ⟨name, t, c, d, ?_⟩, ⟨⟨ei, vdSource, g.vertices.length⟩, ?_, rfl⟩, ?_⟩
          · rw [hadds.vertices, List.getElem?_concat_length]
          · rw [inEdges_append hadds.edges, h.closed.inEdges_nil (Nat.le_refl _)]
            simp [show v ≠ g.vertices.length by omega]
          · rw [outEdges_append hadds.edges, h.closed.outEdges_nil (Nat.le_refl _)]
            simp [show vdSource ≠ g.vertices.length by omega]
    · refine ⟨cs, rs, ?_, ?_, hrs, hcs', hrs'⟩
      · rw [inEdges_append hadds.edges, heq]
        simp [hvw, show g.vertices.length ≠ w by omega]
      · simp [hcs, hvw]
  · have hne : w ≠ vdSource := by simpa using hne
    obtain ⟨ws, heq, hws, hout⟩ := h.outEdges w hw (.inr hne)
    refine ⟨ws, ?_, hws, fun e he => (hout e he).adds hadds⟩
    rw [outEdges_append hadds.edges, heq]
    simp [Ne.symm hne, show g.vertices.length ≠ w by omega]
  · obtain hw | hw := List.mem_append.mp hw
    · exact h.fires w hw
    · rw [List.mem_singleton.mp hw]
      exact hfires

theorem Ends.input (h : Ends vdSource b g srcs inps outs) (hv : v < b.vertices.length)
    (hregister : ∃ name t, vi = ⟨name, .register t⟩)
    (hadds : Adds b.vertices.length g g' vi [⟨ei, g.vertices.length, v⟩]) :
    Ends vdSource b g' srcs (inps ++ [v]) outs := by
  have hsize := h.size
  refine ⟨hadds.closed h.closed hsize, by rw [hadds.vertices]; simp; omega, fun w hw => ?_, fun w hw => ?_, fun w hw hne => ?_,
    h.fires⟩
  · rw [hadds.vertex (by omega), h.old w hw]
  · obtain ⟨cs, rs, heq, hcs, hrs, hsrc, hinp⟩ := h.inEdges w hw
    have hrs' := fun e he => (hinp e he).adds hadds
    have hcs' := fun e he => (hsrc e he).adds hadds
    by_cases hvw : v = w
    · subst hvw
      refine ⟨cs, rs ++ [⟨ei, g.vertices.length, v⟩], ?_, hcs, ?_, hcs', fun e he => ?_⟩
      · rw [inEdges_append hadds.edges, heq]
        simp
      · simp [hrs]
      · rw [List.mem_append, List.mem_singleton] at he
        obtain he | rfl := he
        · exact hrs' e he
        · obtain ⟨name, t, rfl⟩ := hregister
          refine ⟨hsize, ⟨name, t, ?_⟩, ?_, ?_⟩
          · rw [hadds.vertices, List.getElem?_concat_length]
          · rw [inEdges_append hadds.edges, h.closed.inEdges_nil (Nat.le_refl _)]
            simp [show v ≠ g.vertices.length by omega]
          · rw [outEdges_append hadds.edges, h.closed.outEdges_nil (Nat.le_refl _)]
            simp
    · refine ⟨cs, rs, ?_, hcs, ?_, hcs', hrs'⟩
      · rw [inEdges_append hadds.edges, heq]
        simp [hvw]
      · simp [hrs, hvw]
  · obtain ⟨ws, heq, hws, hout⟩ := h.outEdges w hw hne
    refine ⟨ws, ?_, hws, fun e he => (hout e he).adds hadds⟩
    rw [outEdges_append hadds.edges, heq]
    simp [show g.vertices.length ≠ w by omega]

theorem Ends.output (h : Ends vdSource b g srcs inps outs) (hv : v < b.vertices.length)
    (hregister : ∃ name t, vi = ⟨name, .register t⟩)
    (hadds : Adds b.vertices.length g g' vi [⟨ei, v, g.vertices.length⟩]) :
    Ends vdSource b g' srcs inps (outs ++ [v]) := by
  have hsize := h.size
  refine ⟨hadds.closed h.closed hsize, by rw [hadds.vertices]; simp; omega, fun w hw => ?_, fun w hw => ?_, fun w hw hne => ?_,
    h.fires⟩
  · rw [hadds.vertex (by omega), h.old w hw]
  · obtain ⟨cs, rs, heq, hcs, hrs, hsrc, hinp⟩ := h.inEdges w hw
    refine ⟨cs, rs, ?_, hcs, hrs, fun e he => (hsrc e he).adds hadds, fun e he => (hinp e he).adds hadds⟩
    rw [inEdges_append hadds.edges, heq]
    simp [show g.vertices.length ≠ w by omega]
  · obtain ⟨ws, heq, hws, hout⟩ := h.outEdges w hw hne
    have hws' := fun e he => (hout e he).adds hadds
    by_cases hvw : v = w
    · subst hvw
      refine ⟨ws ++ [⟨ei, v, g.vertices.length⟩], ?_, by simp [hws], fun e he => ?_⟩
      · rw [outEdges_append hadds.edges, heq]
        simp
      · rw [List.mem_append, List.mem_singleton] at he
        obtain he | rfl := he
        · exact hws' e he
        · obtain ⟨name, t, rfl⟩ := hregister
          refine ⟨hsize, ⟨name, t, ?_⟩, ?_, ?_⟩
          · rw [hadds.vertices, List.getElem?_concat_length]
          · rw [inEdges_append hadds.edges, h.closed.inEdges_nil (Nat.le_refl _)]
            simp
          · rw [outEdges_append hadds.edges, h.closed.outEdges_nil (Nat.le_refl _)]
            simp [show v ≠ g.vertices.length by omega]
    · refine ⟨ws, ?_, by simp [hws, hvw], hws'⟩
      rw [outEdges_append hadds.edges, heq]
      simp [hvw]

end

end Graph

namespace Generator

/-! ## One actor -/

/-- An actor that reads a channel fires. -/
theorem fires_of_addChannel {st st' : Generator} {pre : String} {src c v : Nat} {snks : List Nat}
    (h : st.addChannel pre src snks = some (c, st')) (hv : v ∈ snks) : st.g.repCount? v ≠ some 0 := by
  obtain ⟨_, repSnks, _, cons, _, hsnks, _, hcons, _⟩ := addChannel_eq h
  obtain ⟨r, hr, hrep⟩ := (Pointwise.forall₂_mem (Pointwise.forall₂_of_mapM hsnks)).1 v hv
  obtain ⟨k, _, hdiv⟩ := (Pointwise.forall₂_mem (Pointwise.forall₂_of_mapM hcons)).1 r hr
  intro hzero
  rw [hrep, Option.some.injEq] at hzero
  exact absurd (div?_pos hdiv) (by omega)

theorem exists_addChannel {st : Generator} {src v repSrc repSnk : Nat} (pre : String) (hsrc : st.g.repCount? src = some repSrc)
    (hsrcpos : repSrc ≠ 0) (hsnk : st.g.repCount? v = some repSnk) (hsnkpos : repSnk ≠ 0) :
    ∃ c st', st.addChannel pre src [v] = some (c, st') := by
  simp [addChannel, hsrc, hsnk, div?, hsrcpos, hsnkpos]

def ReadersFire (g : Graph) : Prop := ∀ v, g.inEdges v ≠ [] → g.repCount? v ≠ some 0

theorem readersFire_addActor {st : Generator} (h : ReadersFire st.g) (hclosed : st.g.Closed) (name : String) (rep : Nat) :
    ReadersFire (st.addActor name rep).g := by
  intro v hv hzero
  have hv : st.g.inEdges v ≠ [] := hv
  have hlt : v < st.g.vertices.length := by
    by_contra hge
    exact hv (hclosed.inEdges_nil (Nat.not_lt.mp hge))
  apply h v hv
  unfold addActor Graph.repCount? at hzero
  rwa [Graph.vertices_addVertex, List.getElem?_append_left hlt] at hzero

theorem readersFire_addChannel {st st' : Generator} {pre : String} {src c : Nat} {snks : List Nat} (h : ReadersFire st.g)
    (hadd : st.addChannel pre src snks = some (c, st')) : ReadersFire st'.g := by
  intro v hv hzero
  obtain ⟨_, _, _, _, _, _, _, _, hadded⟩ := channelAdded hadd
  obtain ⟨name, hname⟩ := hadded.vertices
  obtain ⟨_, es, hes, _, htgt, _⟩ := hadded.edges
  have hc := hadded.fresh
  -- the channel itself is no actor
  have hlt : v < st.g.vertices.length := by
    have hlt' : v < st'.g.vertices.length := Graph.repCount?_lt hzero
    rw [hname, List.length_append, List.length_singleton] at hlt'
    by_contra hge
    have heq : v = st.g.vertices.length := by omega
    simp [Graph.repCount?, hname, heq] at hzero
  rw [repCount?_addChannel hadd hlt] at hzero
  obtain ⟨e, he⟩ := List.exists_mem_of_ne_nil _ hv
  obtain ⟨hmem, rfl⟩ := Graph.mem_inEdges.mp he
  rw [hes, List.mem_append, List.mem_cons] at hmem
  obtain hmem | rfl | hmem := hmem
  · exact h _ (List.ne_nil_of_mem (Graph.mem_inEdges.mpr ⟨hmem, rfl⟩)) hzero
  · exact absurd hlt (by simp [hc])
  · exact fires_of_addChannel hadd (htgt ▸ List.mem_map_of_mem hmem) hzero

theorem readersFire_connected {connected_components : Graph → Nat × (Nat → Nat)} {o : Options} {ds ds₁ ds₂ : List Nat}
    {st₀ st : Generator} (hclusters : clusterGraph o ds = some (st₀, ds₁))
    (hjoin : connectComponents connected_components o.prefixOf st₀ ds₁ = some (st, ds₂)) : st.g.Closed ∧ ReadersFire st.g := by
  have hkept : Kept o.createDAG fun st => Balancing [] [] st.g ∧ ReadersFire st.g :=
    ⟨fun _ name rep h => ⟨h.1.addVertex (by simp), readersFire_addActor h.2 h.1.closed name rep⟩,
      fun _ _ _ _ _ _ h hne _ hadd => ⟨h.1.channel hne hadd, readersFire_addChannel h.2 hadd⟩⟩
  have h₀ := ensures_clusterGraph hkept ⟨balancing_start, fun _ hv => absurd rfl hv⟩ _ _ _ hclusters
  have hst : Balancing [] [] st.g ∧ ReadersFire st.g := by
    refine kept_connectComponents (I := fun st => Balancing [] [] st.g ∧ ReadersFire st.g) ?_ h₀ connected_components _ _ _ hjoin
    intro st pre u v c st' h hadd
    exact ⟨h.1.channel (by simp) hadd, readersFire_addChannel h.2 hadd⟩
  exact ⟨hst.1.closed, hst.2⟩

def turns (requested : Bool) (l : List Nat) : List Nat := if requested then l else []

section
variable {o : Options} {vdSource v : Nat} {b : Graph} {st st' : Generator} {l srcs inps outs : List Nat}

theorem not_mem_turns {requested : Bool} (h : v ∉ l) : v ∉ turns requested l := by
  cases requested
  · exact List.not_mem_nil
  · exact h

theorem ends_addSource (h : b.Ends vdSource st.g (turns o.sourceActor l) inps outs) (hinps : v ∉ inps)
    (hv : v < b.vertices.length) (hsource : o.sourceActor = true → vdSource < b.vertices.length)
    (hadd : addSource o vdSource v st = some st') :
    b.Ends vdSource st'.g (turns o.sourceActor (l ++ [v])) inps outs := by
  unfold addSource at hadd
  by_cases ho : o.sourceActor = true
  · rw [if_pos ho] at hadd
    obtain ⟨⟨c, st₁⟩, hchan, rfl⟩ := Option.map_eq_some_iff.mp hadd
    have hfires := fires_of_addChannel hchan (List.mem_singleton_self v)
    rw [h.repCount? hv] at hfires
    obtain ⟨_, _, prod, cons, _, _, _, _, hadded⟩ := channelAdded hchan
    obtain ⟨name, hname⟩ := hadded.vertices
    obtain ⟨name', es, hes, hsrc, htgt, -⟩ := hadded.edges
    obtain ⟨⟨ei, u, w⟩, rfl⟩ := List.length_eq_one_iff.mp (by simpa using congrArg List.length htgt : es.length = 1)
    obtain ⟨rfl, rfl⟩ : u = c ∧ w = v := ⟨by simpa using hsrc, by simpa using htgt⟩
    have hc := hadded.fresh
    subst hc
    simp only [turns, if_pos ho] at h ⊢
    have hsource := hsource ho
    refine h.source hsource hv hinps hfires ⟨_, _, _, _, rfl⟩ ⟨hname, hes, ?_⟩
    intro e he
    simp only [List.mem_cons, List.not_mem_nil, or_false] at he
    obtain rfl | rfl := he
    · exact ⟨.inl hsource, .inr rfl⟩
    · exact ⟨.inr rfl, .inl hv⟩
  · rw [if_neg ho] at hadd
    cases hadd
    simpa only [turns, if_neg ho] using h

theorem ends_addInputTo (h : b.Ends vdSource st.g srcs (turns o.inputCommunication l) outs) (hv : v < b.vertices.length) :
    b.Ends vdSource (addInputTo o v st).g srcs (turns o.inputCommunication (l ++ [v])) outs := by
  unfold addInputTo
  by_cases ho : o.inputCommunication = true
  · simp only [turns, if_pos ho] at h ⊢
    refine h.input hv ⟨_, _, rfl⟩ ⟨rfl, rfl, ?_⟩
    simpa using Or.inl hv
  · simpa only [turns, if_neg ho] using h

theorem ends_addOutputTo (h : b.Ends vdSource st.g srcs inps (turns o.outputCommunication l)) (hv : v < b.vertices.length) :
    b.Ends vdSource (addOutputTo o v st).g srcs inps (turns o.outputCommunication (l ++ [v])) := by
  unfold addOutputTo
  by_cases ho : o.outputCommunication = true
  · simp only [turns, if_pos ho] at h ⊢
    refine h.output hv ⟨_, _, rfl⟩ ⟨rfl, rfl, ?_⟩
    simpa using Or.inl hv
  · simpa only [turns, if_neg ho] using h

end

/-! ## The loop over the vertices -/

def actorsIn (b : Graph) (vdSource : Nat) (l : List Nat) : List Nat := l.filter fun v => v ≠ vdSource ∧ b.IsActor v

def sourcesIn (b : Graph) (vdSource : Nat) (l : List Nat) : List Nat := (actorsIn b vdSource l).filter fun v => b.inEdges v = []

def sinksIn (b : Graph) (vdSource : Nat) (l : List Nat) : List Nat := (actorsIn b vdSource l).filter fun v => b.outEdges v = []

/-- After the vertices `done`. -/
structure Looped (o : Options) (vdSource : Nat) (b : Graph) (done : List Nat) (s : Sourced) : Prop where
  ends : b.Ends vdSource s.st.g (turns o.sourceActor (sourcesIn b vdSource done))
    (turns o.inputCommunication (sourcesIn b vdSource done)) (turns o.outputCommunication (sinksIn b vdSource done))
  actorMap : s.actorMap = actorsIn b vdSource done
  inputsConnected : s.inputsConnected = false ↔ sourcesIn b vdSource done = []
  outputsConnected : s.outputsConnected = false ↔ sinksIn b vdSource done = []

section
variable {o : Options} {vdSource v : Nat} {b : Graph} {done : List Nat} {s : Sourced}

theorem actorsIn_append_of_not (hv : ¬ (v ≠ vdSource ∧ b.IsActor v)) (done : List Nat) :
    actorsIn b vdSource (done ++ [v]) = actorsIn b vdSource done := by
  simp [actorsIn, hv]

theorem actorsIn_append (hv : v ≠ vdSource ∧ b.IsActor v) (done : List Nat) :
    actorsIn b vdSource (done ++ [v]) = actorsIn b vdSource done ++ [v] := by
  simp [actorsIn, hv]

theorem mem_actorsIn {l : List Nat} : v ∈ actorsIn b vdSource l ↔ v ∈ l ∧ v ≠ vdSource ∧ b.IsActor v := by
  simp [actorsIn]

theorem mem_sourcesIn {l : List Nat} : v ∈ sourcesIn b vdSource l ↔ (v ∈ l ∧ v ≠ vdSource ∧ b.IsActor v) ∧ b.inEdges v = [] := by
  simp [sourcesIn, mem_actorsIn]

theorem mem_sinksIn {l : List Nat} : v ∈ sinksIn b vdSource l ↔ (v ∈ l ∧ v ≠ vdSource ∧ b.IsActor v) ∧ b.outEdges v = [] := by
  simp [sinksIn, mem_actorsIn]

/-- The degrees that the loop tests are those of the graph before the loop. -/
theorem Looped.sourceActor (h : Looped o vdSource b done s) (hv : v < b.vertices.length) (hdone : v ∉ done)
    (hsource : o.sourceActor = true → vdSource < b.vertices.length) :
    Ensures (sourceActor o vdSource s v) (Looped o vdSource b (done ++ [v])) := by
  have hsrcs : v ∉ sourcesIn b vdSource done := fun hmem => hdone (mem_sourcesIn.mp hmem).1.1
  have hsnks : v ∉ sinksIn b vdSource done := fun hmem => hdone (mem_sinksIn.mp hmem).1.1
  have hact := h.ends.isActor hv
  unfold Generator.sourceActor
  apply ensures_ite
  · intro hskip
    have hno : ¬ (v ≠ vdSource ∧ b.IsActor v) := by
      rw [hact] at hskip
      tauto
    apply ensures_pure
    obtain ⟨hends, hmap, hins, houts⟩ := h
    constructor <;> simpa only [sourcesIn, sinksIn, actorsIn_append_of_not hno]
  intro hturn
  obtain ⟨hne, hactor⟩ : v ≠ vdSource ∧ b.IsActor v := by
    rw [hact] at hturn
    tauto
  have hin := h.ends.inEdges_same hv (not_mem_turns hsrcs) (not_mem_turns hsrcs)
  have hout := h.ends.outEdges_same hv (.inr hne) (not_mem_turns hsnks)
  have hsources : sourcesIn b vdSource (done ++ [v]) =
      sourcesIn b vdSource done ++ if b.inEdges v = [] then [v] else [] := by
    rw [sourcesIn, actorsIn_append ⟨hne, hactor⟩, List.filter_append]
    by_cases hv : b.inEdges v = [] <;> simp [hv, sourcesIn]
  have hsinks : sinksIn b vdSource (done ++ [v]) =
      sinksIn b vdSource done ++ if b.outEdges v = [] then [v] else [] := by
    rw [sinksIn, actorsIn_append ⟨hne, hactor⟩, List.filter_append]
    by_cases hv : b.outEdges v = [] <;> simp [hv, sinksIn]
  rw [hin, hout]
  refine ensures_bind (P := fun st₁ => b.Ends vdSource st₁.g (turns o.sourceActor (sourcesIn b vdSource (done ++ [v])))
    (turns o.inputCommunication (sourcesIn b vdSource done)) (turns o.outputCommunication (sinksIn b vdSource done))) ?_ ?_
  · apply ensures_ofOption
    intro st₁ hst₁
    rw [hsources]
    by_cases hnone : b.inEdges v = []
    · simp only [hnone, decide_true, if_true] at hst₁ ⊢
      exact ends_addSource h.ends (not_mem_turns hsrcs) hv hsource hst₁
    · simp only [hnone, decide_false, Bool.false_eq_true, if_false, List.append_nil] at hst₁ ⊢
      cases hst₁
      exact h.ends
  intro st₁ hends
  apply ensures_pure
  refine ⟨?_, by rw [h.actorMap, actorsIn_append ⟨hne, hactor⟩], ?_, ?_⟩
  · have hinput : b.Ends vdSource (if decide (b.inEdges v = []) = true then addInputTo o v st₁ else st₁).g
        (turns o.sourceActor (sourcesIn b vdSource (done ++ [v])))
        (turns o.inputCommunication (sourcesIn b vdSource (done ++ [v])))
        (turns o.outputCommunication (sinksIn b vdSource done)) := by
      rw [hsources] at hends ⊢
      by_cases hnone : b.inEdges v = []
      · simp only [hnone, decide_true, if_true] at hends ⊢
        exact ends_addInputTo hends hv
      · simpa only [hnone, decide_false, Bool.false_eq_true, if_false, List.append_nil] using hends
    dsimp only
    rw [hsinks]
    by_cases hnone : b.outEdges v = []
    · simp only [hnone, decide_true, if_true]
      exact ends_addOutputTo hinput hv
    · simpa only [hnone, decide_false, Bool.false_eq_true, if_false, List.append_nil] using hinput
  · rw [hsources]
    by_cases hnone : b.inEdges v = [] <;> simp [hnone, h.inputsConnected]
  · rw [hsinks]
    by_cases hnone : b.outEdges v = [] <;> simp [hnone, h.outputsConnected]

end

/-! ## The whole step -/

/-- Those that play a role, if it is requested: the candidates or a random actor. -/
def Role (requested : Prop) (candidates actors l : List Nat) : Prop :=
  (candidates ≠ [] ∨ ¬ requested) ∧ l = candidates ∨ candidates = [] ∧ ∃ v ∈ actors, l = [v]

section
variable {o : Options} {vdSource v : Nat} {b : Graph} {s : Sourced} {st : Generator}

theorem looped_start (hclosed : st.g.Closed) : Looped o vdSource st.g [] ⟨st, [], false, false⟩ := by
  refine ⟨?_, rfl, by simp [sourcesIn, actorsIn], by simp [sinksIn, actorsIn]⟩
  simpa [turns, sourcesIn, sinksIn, actorsIn] using Graph.Ends.refl hclosed

theorem ensures_looped (hclosed : st.g.Closed) (hsource : o.sourceActor = true → vdSource < st.g.vertices.length) :
    Ensures ((List.range st.g.vertices.length).foldlM (sourceActor o vdSource) ⟨st, [], false, false⟩)
      (Looped o vdSource st.g (List.range st.g.vertices.length)) := by
  refine ensures_foldlM_done ?_ (List.nil_append _).symm (looped_start hclosed)
  intro done v rest s hl hs
  have hnodup := hl ▸ List.nodup_range
  have hmem : v ∈ List.range st.g.vertices.length := by simp [hl]
  apply hs.sourceActor (List.mem_range.mp hmem) ?_ hsource
  exact fun hdone => List.disjoint_of_nodup_append hnodup hdone List.mem_cons_self

theorem ensures_connectInputs (h : Looped o vdSource b (List.range b.vertices.length) s)
    (hsource : o.sourceActor = true → vdSource < b.vertices.length) {outs : List Nat}
    (houts : outs = turns o.outputCommunication (sinksIn b vdSource (List.range b.vertices.length))) :
    Ensures (connectInputs o vdSource s) fun st => ∃ readers,
      Role (o.sourceActor ∨ o.inputCommunication) (sourcesIn b vdSource (List.range b.vertices.length)) s.actorMap readers ∧
        b.Ends vdSource st.g (turns o.sourceActor readers) (turns o.inputCommunication readers) outs := by
  subst houts
  have hends := h.ends
  unfold connectInputs
  apply ensures_ite
  · intro hno
    have hnone := h.inputsConnected.mp hno.1
    rw [hnone] at hends
    refine ensures_bind (P := fun _ => True) ensures_true fun _ _ => ?_
    refine ensures_bind (ensures_ofOption fun v hv => hv) fun v hv => ?_
    have hmem := List.mem_of_getElem? hv
    have hlt : v < b.vertices.length := by
      rw [h.actorMap, mem_actorsIn] at hmem
      exact hmem.2.2.lt
    refine ensures_bind (ensures_ofOption fun st₁ hst₁ => hst₁) fun st₁ hst₁ => ?_
    apply ensures_pure
    refine ⟨[v], .inr ⟨hnone, v, hmem, rfl⟩, ?_⟩
    exact ends_addInputTo (ends_addSource hends (not_mem_turns List.not_mem_nil) hlt hsource hst₁) hlt
  · intro hno
    apply ensures_pure
    refine ⟨_, .inl ⟨?_, rfl⟩, hends⟩
    rw [h.inputsConnected] at hno
    tauto

theorem ensures_connectOutputs {srcs inps : List Nat} (h : Looped o vdSource b (List.range b.vertices.length) s)
    (hends : b.Ends vdSource st.g srcs inps (turns o.outputCommunication (sinksIn b vdSource (List.range b.vertices.length)))) :
    Ensures (connectOutputs o s st) fun st => ∃ writers,
      Role o.outputCommunication (sinksIn b vdSource (List.range b.vertices.length)) s.actorMap writers ∧
        b.Ends vdSource st.g srcs inps (turns o.outputCommunication writers) := by
  unfold connectOutputs
  apply ensures_ite
  · intro hno
    have hnone := h.outputsConnected.mp hno.1
    rw [hnone] at hends
    refine ensures_bind (P := fun _ => True) ensures_true fun _ _ => ?_
    refine ensures_bind (ensures_ofOption fun v hv => hv) fun v hv => ?_
    have hmem := List.mem_of_getElem? hv
    have hlt : v < b.vertices.length := by
      rw [h.actorMap, mem_actorsIn] at hmem
      exact hmem.2.2.lt
    apply ensures_pure
    exact ⟨[v], .inr ⟨hnone, v, hmem, rfl⟩, ends_addOutputTo hends hlt⟩
  · intro hno
    apply ensures_pure
    refine ⟨_, .inl ⟨?_, rfl⟩, hends⟩
    rw [h.outputsConnected] at hno
    tauto

def base (o : Options) (st : Generator) : Graph :=
  (if o.sourceActor then st.addActor (o.prefixOf ++ "source") 1 else st).g

theorem ensures_addSourcesAt (hclosed : (base o st).Closed)
    (hsource : o.sourceActor = true → vdSource < (base o st).vertices.length) :
    Ensures (addSourcesAt o vdSource st) fun st' => ∃ readers writers,
      Role (o.sourceActor ∨ o.inputCommunication) (sourcesIn (base o st) vdSource (List.range (base o st).vertices.length))
        (actorsIn (base o st) vdSource (List.range (base o st).vertices.length)) readers ∧
      Role o.outputCommunication (sinksIn (base o st) vdSource (List.range (base o st).vertices.length))
        (actorsIn (base o st) vdSource (List.range (base o st).vertices.length)) writers ∧
      (base o st).Ends vdSource st'.g (turns o.sourceActor readers) (turns o.inputCommunication readers)
        (turns o.outputCommunication writers) := by
  unfold addSourcesAt
  unfold base at hclosed hsource ⊢
  refine ensures_bind (ensures_looped hclosed hsource) fun s hs => ?_
  refine ensures_bind (ensures_connectInputs hs hsource rfl) fun st₁ ⟨readers, hreaders, hends⟩ => ?_
  refine (ensures_connectOutputs hs hends).mono fun st₂ ⟨writers, hwriters, hends⟩ => ?_
  rw [hs.actorMap] at hreaders hwriters
  exact ⟨readers, writers, hreaders, hwriters, hends⟩

/-! ## Where the step does not fail -/

theorem exists_addSource (hsrc : o.sourceActor = true → st.g.repCount? vdSource = some 1)
    (hv : o.sourceActor = true → st.g.IsActor v ∧ st.g.repCount? v ≠ some 0) : ∃ st', addSource o vdSource v st = some st' := by
  unfold addSource
  by_cases ho : o.sourceActor = true
  · obtain ⟨hactor, hfires⟩ := hv ho
    obtain ⟨repSnk, hrep⟩ := Option.isSome_iff_exists.mp hactor
    have hpos : repSnk ≠ 0 := fun hzero => hfires (hzero ▸ hrep)
    obtain ⟨c, st', hadd⟩ := exists_addChannel o.prefixOf (hsrc ho) Nat.one_ne_zero hrep hpos
    exact ⟨st', by rw [if_pos ho, hadd]; rfl⟩
  · exact ⟨st, if_neg ho⟩

/-- The source actor is there, and what it may be connected to fires. -/
structure Feedable (o : Options) (vdSource : Nat) (b : Graph) : Prop where
  lt : o.sourceActor = true → vdSource < b.vertices.length
  source : o.sourceActor = true → b.repCount? vdSource = some 1
  fires : o.sourceActor = true → ∀ v, v ≠ vdSource → b.IsActor v → b.repCount? v ≠ some 0

theorem Feedable.exists_addSource {srcs inps outs : List Nat} (h : Feedable o vdSource b)
    (hends : b.Ends vdSource st.g srcs inps outs) (hne : v ≠ vdSource) (hactor : b.IsActor v) :
    ∃ st', addSource o vdSource v st = some st' := by
  apply Generator.exists_addSource
  · intro ho
    rw [hends.repCount? (h.lt ho), h.source ho]
  · intro ho
    rw [hends.isActor hactor.lt, hends.repCount? hactor.lt]
    exact ⟨hactor, h.fires ho v hne hactor⟩

theorem returns_sourceActor {done : List Nat} (h : Looped o vdSource b done s) (hfeed : Feedable o vdSource b)
    (hv : v < b.vertices.length) : Returns 0 (sourceActor o vdSource s v) fun _ => True := by
  unfold Generator.sourceActor
  by_cases hskip : v = vdSource ∨ ¬ s.st.g.IsActor v
  · rw [if_pos hskip]
    exact returns_pure trivial
  rw [if_neg hskip]
  obtain ⟨hne, hactor⟩ := not_or.mp hskip
  rw [not_not, h.ends.isActor hv] at hactor
  obtain ⟨st', hadd⟩ := hfeed.exists_addSource h.ends hne hactor
  have hsource : ∃ st', (if decide (s.st.g.inEdges v = []) = true then addSource o vdSource v s.st else some s.st) = some st' := by
    split
    · exact ⟨st', hadd⟩
    · exact ⟨s.st, rfl⟩
  obtain ⟨st₁, hst₁⟩ := hsource
  exact returns_bind (j := 0) (k := 0) (returns_ofOption hst₁ trivial) fun _ (_ : True) => returns_pure trivial

theorem returns_looped (hclosed : st.g.Closed) (hfeed : Feedable o vdSource st.g) :
    Returns 0 ((List.range st.g.vertices.length).foldlM (sourceActor o vdSource) ⟨st, [], false, false⟩)
      (Looped o vdSource st.g (List.range st.g.vertices.length)) := by
  refine returns_foldlM_done ?_ (List.nil_append _).symm (looped_start hclosed)
  intro done v rest s hl hs
  have hlt : v < st.g.vertices.length := List.mem_range.mp (by simp [hl])
  have hdone : v ∉ done := fun hdone =>
    List.disjoint_of_nodup_append (hl ▸ List.nodup_range) hdone List.mem_cons_self
  exact ((returns_sourceActor hs hfeed hlt).and_ensures (hs.sourceActor hlt hdone hfeed.lt)).mono fun _ h => h.2

theorem mem_of_actorMap {i : Nat} (h : Looped o vdSource b (List.range b.vertices.length) s) (hi : i < s.actorMap.length) :
    s.actorMap[i] ≠ vdSource ∧ b.IsActor s.actorMap[i] := by
  have hmem : s.actorMap[i] ∈ actorsIn b vdSource (List.range b.vertices.length) := h.actorMap ▸ List.getElem_mem hi
  exact (mem_actorsIn.mp hmem).2

theorem actorMap_ne_nil (h : Looped o vdSource b (List.range b.vertices.length) s) (hv : v ≠ vdSource) (hactor : b.IsActor v) :
    0 < s.actorMap.length := by
  apply List.length_pos_of_mem (a := v)
  rw [h.actorMap, mem_actorsIn]
  exact ⟨List.mem_range.mpr hactor.lt, hv, hactor⟩

theorem returns_connectInputs (h : Looped o vdSource b (List.range b.vertices.length) s) (hfeed : Feedable o vdSource b)
    (hactor : o.sourceActor ∨ o.inputCommunication → ∃ v, v ≠ vdSource ∧ b.IsActor v) :
    Returns 1 (connectInputs o vdSource s) fun _ => True := by
  unfold connectInputs
  by_cases hno : s.inputsConnected = false ∧ (o.sourceActor ∨ o.inputCommunication)
  · rw [if_pos hno]
    obtain ⟨v, hv, hv'⟩ := hactor hno.2
    refine returns_bind (k := 0) (returns_below (actorMap_ne_nil h hv hv')) fun i hi => ?_
    obtain ⟨hne, hact⟩ := mem_of_actorMap h hi
    obtain ⟨st', hadd⟩ := hfeed.exists_addSource h.ends hne hact
    refine returns_bind (j := 0) (k := 0) (returns_ofOption (P := fun v => v = s.actorMap[i]) (List.getElem?_eq_getElem hi) rfl)
      fun v hv => ?_
    rw [hv]
    exact returns_bind (j := 0) (k := 0) (returns_ofOption hadd trivial) fun _ (_ : True) => returns_pure trivial
  · rw [if_neg hno]
    exact returns_pure trivial

theorem returns_connectOutputs (h : Looped o vdSource b (List.range b.vertices.length) s)
    (hactor : o.outputCommunication → ∃ v, v ≠ vdSource ∧ b.IsActor v) : Returns 1 (connectOutputs o s st) fun _ => True := by
  unfold connectOutputs
  by_cases hno : s.outputsConnected = false ∧ o.outputCommunication
  · rw [if_pos hno]
    obtain ⟨v, hv, hv'⟩ := hactor hno.2
    refine returns_bind (k := 0) (returns_below (actorMap_ne_nil h hv hv')) fun i hi => ?_
    exact returns_bind (j := 0) (k := 0) (returns_ofOption (List.getElem?_eq_getElem hi) trivial) fun _ (_ : True) =>
      returns_pure trivial
  · rw [if_neg hno]
    exact returns_pure trivial

theorem returns_addSourcesAt (hclosed : (base o st).Closed) (hfeed : Feedable o vdSource (base o st))
    (hactor : o.sourceActor ∨ o.inputCommunication ∨ o.outputCommunication → ∃ v, v ≠ vdSource ∧ (base o st).IsActor v) :
    Returns 2 (addSourcesAt o vdSource st) fun _ => True := by
  unfold addSourcesAt
  unfold base at hclosed hfeed hactor
  refine returns_bind (k := 2) (returns_looped hclosed hfeed) fun s hs => ?_
  refine returns_bind (j := 1) (k := 1) (returns_connectInputs hs hfeed fun h => hactor (h.imp_right .inl)) fun st₁ _ => ?_
  exact returns_connectOutputs hs fun h => hactor (.inr (.inr h))

/-! ## The uninitialised vertex -/

/-- `readers` have got the channel and the input that are requested, `writers` the output,
and nothing else has changed. -/
structure EndsConnected (o : Options) (vdSource : Nat) (g g' : Graph) (readers writers : List Nat) : Prop where
  reading : o.sourceActor ∨ o.inputCommunication → g.Plays g.inEdges readers
  writing : o.outputCommunication → g.Plays g.outEdges writers
  source : o.sourceActor → g'.vertices[vdSource]? = some ⟨o.prefixOf ++ "source", .actor 1⟩
  old : ∀ v < g.vertices.length, g'.vertices[v]? = g.vertices[v]?
  inEdges : ∀ v < g.vertices.length, ∃ cs rs, g'.inEdges v = g.inEdges v ++ cs ++ rs ∧
    cs.length = (if o.sourceActor ∧ v ∈ readers then 1 else 0) ∧
    rs.length = (if o.inputCommunication ∧ v ∈ readers then 1 else 0) ∧
    (∀ e ∈ cs, g'.FromSource g.vertices.length vdSource e) ∧ ∀ e ∈ rs, g'.FromInput g.vertices.length e
  outEdges : ∀ v < g.vertices.length, ∃ ws, g'.outEdges v = g.outEdges v ++ ws ∧
    ws.length = (if o.outputCommunication ∧ v ∈ writers then 1 else 0) ∧ ∀ e ∈ ws, g'.ToOutput g.vertices.length e

theorem inEdges_base (v : Nat) : (base o st).inEdges v = st.g.inEdges v := by
  unfold base
  split <;> rfl

theorem outEdges_base (v : Nat) : (base o st).outEdges v = st.g.outEdges v := by
  unfold base
  split <;> rfl

theorem vertices_base : (base o st).vertices =
    st.g.vertices ++ if o.sourceActor then [⟨o.prefixOf ++ "source", .actor 1⟩] else [] := by
  unfold base
  split
  · rfl
  · rw [List.append_nil]

theorem closed_base (h : st.g.Closed) : (base o st).Closed := by
  unfold base
  split
  · exact h.addVertex
  · exact h

theorem lt_base (hsource : o.sourceActor = true → vdSource = st.g.vertices.length) (ho : o.sourceActor = true) :
    vdSource < (base o st).vertices.length := by
  rw [hsource ho, vertices_base, List.length_append, if_pos ho]
  simp

theorem isActor_base (hsource : o.sourceActor = true → vdSource = st.g.vertices.length) :
    v ≠ vdSource ∧ (base o st).IsActor v ↔ v ≠ vdSource ∧ st.g.IsActor v := by
  apply and_congr_right
  intro hne
  by_cases hv : v < st.g.vertices.length
  · unfold Graph.IsActor Graph.repCount?
    rw [vertices_base, List.getElem?_append_left hv]
  · refine ⟨fun h => ?_, fun h => absurd h.lt hv⟩
    have hlt := h.lt
    rw [vertices_base, List.length_append] at hlt
    by_cases ho : o.sourceActor = true
    · rw [if_pos ho, List.length_singleton] at hlt
      have := hsource ho
      omega
    · rw [if_neg ho, List.length_nil] at hlt
      omega

theorem nodup_role {requested : Prop} {candidates actors l : List Nat} (h : Role requested candidates actors l)
    (hnodup : candidates.Nodup) : l.Nodup := by
  obtain ⟨-, rfl⟩ | ⟨-, v, -, rfl⟩ := h
  · exact hnodup
  · exact List.nodup_singleton v

theorem count_turns {requested : Bool} {l : List Nat} (h : l.Nodup) (v : Nat) :
    (turns requested l).count v = if requested = true ∧ v ∈ l then 1 else 0 := by
  cases requested with
  | false => simp [turns]
  | true =>
    by_cases hv : v ∈ l
    · simpa [turns, hv] using List.count_eq_one_of_mem h hv
    · simpa [turns, hv] using List.count_eq_zero.mpr hv

theorem plays_of_role {requested : Prop} {edges : Nat → List Edge} {candidates l : List Nat}
    (hsource : o.sourceActor = true → vdSource = st.g.vertices.length)
    (hcandidates : ∀ v, v ∈ candidates ↔ (v ≠ vdSource ∧ (base o st).IsActor v) ∧ edges v = [])
    (h : Role requested candidates (actorsIn (base o st) vdSource (List.range (base o st).vertices.length)) l)
    (hreq : requested) (hskipped : st.g.IsActor vdSource → edges vdSource ≠ []) : st.g.Plays edges l := by
  have hmem : ∀ v, v ∈ candidates ↔ st.g.IsActor v ∧ edges v = [] := by
    intro v
    rw [hcandidates, isActor_base hsource]
    refine ⟨fun h => ⟨h.1.2, h.2⟩, fun h => ⟨⟨?_, h.1⟩, h.2⟩⟩
    intro heq
    rw [heq] at h
    exact hskipped h.1 h.2
  obtain ⟨hne, rfl⟩ | ⟨hnone, v, hv, rfl⟩ := h
  · left
    obtain ⟨v, hv⟩ := List.exists_mem_of_ne_nil _ (hne.resolve_right (not_not_intro hreq))
    exact ⟨⟨v, (hmem v).mp hv⟩, hmem⟩
  · right
    refine ⟨fun w hw hnil => ?_, v, ?_, rfl⟩
    · exact List.ne_nil_of_mem ((hmem w).mpr ⟨hw, hnil⟩) hnone
    · exact ((isActor_base hsource).mp (mem_actorsIn.mp hv).2).2

theorem not_mem_role {requested : Prop} {candidates l : List Nat} (hcandidates : vdSource ∉ candidates)
    (h : Role requested candidates (actorsIn b vdSource (List.range b.vertices.length)) l) : vdSource ∉ l := by
  obtain ⟨-, rfl⟩ | ⟨-, v, hv, rfl⟩ := h
  · exact hcandidates
  · rw [List.mem_singleton]
    exact Ne.symm (mem_actorsIn.mp hv).2.1

theorem plays_mem {edges : Nat → List Edge} {l : List Nat} {g : Graph} (h : g.Plays edges l) (hactor : g.IsActor v)
    (hnone : edges v = []) : v ∈ l := by
  obtain ⟨-, hl⟩ | ⟨hall, -⟩ := h
  · exact (hl v).mpr ⟨hactor, hnone⟩
  · exact absurd hnone (hall v hactor)

theorem not_mem_sourcesIn {l : List Nat} : vdSource ∉ sourcesIn b vdSource l := fun h => (mem_sourcesIn.mp h).1.2.1 rfl

theorem not_mem_sinksIn {l : List Nat} : vdSource ∉ sinksIn b vdSource l := fun h => (mem_sinksIn.mp h).1.2.1 rfl

/-- What the step does, whatever `vdSource` is. -/
theorem addSourcesAt_ends {st' : Generator} {ds ds' : List Nat} (hclosed : st.g.Closed)
    (hsource : o.sourceActor = true → vdSource = st.g.vertices.length)
    (h : addSourcesAt o vdSource st ds = some (st', ds')) :
    ∃ readers writers,
      (st.g.IsActor vdSource → st'.g.inEdges vdSource = st.g.inEdges vdSource ∧ st'.g.outEdges vdSource = st.g.outEdges vdSource) ∧
      ((st.g.IsActor vdSource → (o.inputCommunication → st.g.inEdges vdSource ≠ []) ∧
        (o.outputCommunication → st.g.outEdges vdSource ≠ [])) → EndsConnected o vdSource st.g st'.g readers writers) := by
  obtain ⟨readers, writers, hreaders, hwriters, hends⟩ := ensures_addSourcesAt (closed_base hclosed) (lt_base hsource) ds st' ds' h
  have hle : st.g.vertices.length ≤ (base o st).vertices.length := by
    rw [vertices_base, List.length_append]
    omega
  refine ⟨readers, writers, fun hactor => ⟨?_, ?_⟩, fun hskipped => ⟨fun hreq => ?_, fun hreq => ?_, fun ho => ?_, fun v hv => ?_,
    fun v hv => ?_, fun v hv => ?_⟩⟩
  · have hnot := not_mem_role not_mem_sourcesIn hreaders
    rw [hends.inEdges_same (hactor.lt.trans_le hle) (not_mem_turns hnot) (not_mem_turns hnot), inEdges_base]
  · have hnot := not_mem_role not_mem_sinksIn hwriters
    have hno : ¬ o.sourceActor = true := fun ho => absurd (hsource ho) hactor.lt.ne
    rw [hends.outEdges_same (hactor.lt.trans_le hle) (.inl (if_neg hno)) (not_mem_turns hnot), outEdges_base]
  · refine plays_of_role hsource (fun v => ?_) hreaders hreq fun hactor => ?_
    · rw [mem_sourcesIn, inEdges_base]
      refine ⟨fun h => ⟨h.1.2, h.2⟩, fun h => ⟨⟨List.mem_range.mpr h.1.2.lt, h.1⟩, h.2⟩⟩
    · refine (hskipped hactor).1 (hreq.resolve_left fun ho => ?_)
      exact absurd (hsource ho) hactor.lt.ne
  · refine plays_of_role hsource (fun v => ?_) hwriters hreq fun hactor => (hskipped hactor).2 hreq
    rw [mem_sinksIn, outEdges_base]
    refine ⟨fun h => ⟨h.1.2, h.2⟩, fun h => ⟨⟨List.mem_range.mpr h.1.2.lt, h.1⟩, h.2⟩⟩
  · rw [hends.old _ (lt_base hsource ho), hsource ho, vertices_base, if_pos ho, List.getElem?_concat_length]
  · rw [hends.old v (hv.trans_le hle), vertices_base, List.getElem?_append_left hv]
  · obtain ⟨cs, rs, heq, hcs, hrs, hsrc, hinp⟩ := hends.inEdges v (hv.trans_le hle)
    have hnodup := nodup_role hreaders ((List.nodup_range.filter _).filter _)
    rw [inEdges_base] at heq
    rw [count_turns hnodup] at hcs hrs
    exact ⟨cs, rs, heq, hcs, hrs, fun e he => { hsrc e he with new := hle.trans (hsrc e he).new },
      fun e he => { hinp e he with new := hle.trans (hinp e he).new }⟩
  · have hne : turns o.sourceActor readers = [] ∨ v ≠ vdSource := by
      by_cases ho : o.sourceActor = true
      · exact .inr (hsource ho ▸ hv.ne)
      · exact .inl (if_neg ho)
    obtain ⟨ws, heq, hws, hout⟩ := hends.outEdges v (hv.trans_le hle) hne
    have hnodup := nodup_role hwriters ((List.nodup_range.filter _).filter _)
    rw [outEdges_base] at heq
    rw [count_turns hnodup] at hws
    exact ⟨ws, heq, hws, fun e he => { hout e he with new := hle.trans (hout e he).new }⟩

theorem EndsConnected.inEdges_ne {g g' : Graph} {readers writers : List Nat} (h : EndsConnected o vdSource g g' readers writers)
    (hactor : g.IsActor v) (hsame : g'.inEdges v = g.inEdges v) (hreq : o.inputCommunication) : g.inEdges v ≠ [] := by
  intro hnone
  obtain ⟨cs, rs, heq, -, hrs, -⟩ := h.inEdges v hactor.lt
  rw [if_pos ⟨hreq, plays_mem (h.reading (.inr hreq)) hactor hnone⟩] at hrs
  rw [hsame, hnone] at heq
  obtain ⟨-, rfl⟩ : cs = [] ∧ rs = [] := by simpa using heq
  cases hrs

theorem EndsConnected.outEdges_ne {g g' : Graph} {readers writers : List Nat} (h : EndsConnected o vdSource g g' readers writers)
    (hactor : g.IsActor v) (hsame : g'.outEdges v = g.outEdges v) (hreq : o.outputCommunication) : g.outEdges v ≠ [] := by
  intro hnone
  obtain ⟨ws, heq, hws, -⟩ := h.outEdges v hactor.lt
  rw [if_pos ⟨hreq, plays_mem (h.writing hreq) hactor hnone⟩] at hws
  rw [hsame, hnone, List.nil_append] at heq
  rw [← heq] at hws
  cases hws

theorem Role.exists_actor {requested : Prop} {candidates actors l : List Nat} (h : Role requested candidates actors l)
    (hreq : requested) (hsub : candidates ⊆ actors) : ∃ v, v ∈ actors := by
  obtain ⟨hne, -⟩ | ⟨-, v, hv, -⟩ := h
  · obtain ⟨v, hv⟩ := List.exists_mem_of_ne_nil _ (hne.resolve_right (not_not_intro hreq))
    exact ⟨v, hsub hv⟩
  · exact ⟨v, hv⟩

theorem repCount?_base (hv : v < st.g.vertices.length) : (base o st).repCount? v = st.g.repCount? v := by
  unfold Graph.repCount?
  rw [vertices_base, List.getElem?_append_left hv]

/-- What the step relies on. -/
structure Connectable (o : Options) (vdSource : Nat) (g : Graph) : Prop where
  skipped : g.IsActor vdSource → (o.inputCommunication → g.inEdges vdSource ≠ []) ∧
      (o.outputCommunication → g.outEdges vdSource ≠ [])
  actor : o.sourceActor ∨ o.inputCommunication ∨ o.outputCommunication → ∃ v, v ≠ vdSource ∧ g.IsActor v
  fires : o.sourceActor → ∀ v, g.IsActor v → g.inEdges v = [] → g.repCount? v ≠ some 0

theorem addSourcesAt_needs {st' : Generator} {ds ds' : List Nat} (hclosed : st.g.Closed)
    (hsource : o.sourceActor = true → vdSource = st.g.vertices.length)
    (h : addSourcesAt o vdSource st ds = some (st', ds')) :
    (o.sourceActor ∨ o.inputCommunication ∨ o.outputCommunication → ∃ v, v ≠ vdSource ∧ st.g.IsActor v) ∧
      (o.sourceActor → ∀ v, st.g.IsActor v → st.g.inEdges v = [] → st.g.repCount? v ≠ some 0) := by
  obtain ⟨readers, writers, hreaders, hwriters, hends⟩ := ensures_addSourcesAt (closed_base hclosed) (lt_base hsource) ds st' ds' h
  have hactor : ∀ v, v ∈ actorsIn (base o st) vdSource (List.range (base o st).vertices.length) → v ≠ vdSource ∧ st.g.IsActor v :=
    fun v hv => (isActor_base hsource).mp (mem_actorsIn.mp hv).2
  refine ⟨fun hreq => ?_, fun ho v hv hnone => ?_⟩
  · obtain hreq | hreq := or_assoc.mpr hreq
    · obtain ⟨v, hv⟩ := hreaders.exists_actor hreq fun _ => List.mem_of_mem_filter
      exact ⟨v, hactor v hv⟩
    · obtain ⟨v, hv⟩ := hwriters.exists_actor hreq fun _ => List.mem_of_mem_filter
      exact ⟨v, hactor v hv⟩
  · have hcand : v ∈ sourcesIn (base o st) vdSource (List.range (base o st).vertices.length) := by
      have hne : v ≠ vdSource := hsource ho ▸ hv.lt.ne
      have hact := (isActor_base hsource).mpr ⟨hne, hv⟩
      rw [mem_sourcesIn, inEdges_base]
      exact ⟨⟨List.mem_range.mpr hact.2.lt, hact⟩, hnone⟩
    have hread : v ∈ turns o.sourceActor readers := by
      obtain ⟨-, rfl⟩ | ⟨hnil, -⟩ := hreaders
      · rwa [turns, if_pos ho]
      · exact absurd hnil (List.ne_nil_of_mem hcand)
    rw [← repCount?_base hv.lt]
    exact hends.fires v hread

theorem Connectable.feedable (h : Connectable o vdSource st.g) (hfire : ReadersFire st.g)
    (hsource : o.sourceActor = true → vdSource = st.g.vertices.length) : Feedable o vdSource (base o st) where
  lt := lt_base hsource
  source ho := by
    unfold Graph.repCount?
    rw [hsource ho, vertices_base, if_pos ho, List.getElem?_concat_length]
  fires ho v hne hv := by
    obtain ⟨-, hactor⟩ := (isActor_base hsource).mp ⟨hne, hv⟩
    rw [repCount?_base hactor.lt]
    by_cases hnone : st.g.inEdges v = []
    · exact h.fires ho v hactor hnone
    · exact hfire v hnone

/-- The step succeeds and connects the ends, whatever is drawn, exactly if the actor that an
uninitialised `vdSource` happens to name needs no input and no output, there is another actor
for what is requested, and the source need not be connected to an actor that never fires. -/
theorem ends_connected_iff (connected_components : Graph → Nat × (Nat → Nat)) (o : Options) (ds ds₁ ds₂ ds₃ : List Nat)
    (st₀ st : Generator) (vdSource : Nat) (hclusters : clusterGraph o ds = some (st₀, ds₁))
    (hjoin : connectComponents connected_components o.prefixOf st₀ ds₁ = some (st, ds₂))
    (hsource : sourceVertex o st ds₂ = some (vdSource, ds₃)) :
    Returns 2 (addSourcesAt o vdSource st) (fun st' => ∃ readers writers, EndsConnected o vdSource st.g st'.g readers writers) ↔
      Connectable o vdSource st.g := by
  obtain ⟨hclosed, hfire⟩ := readersFire_connected hclusters hjoin
  have hsame := ensures_sourceVertex o st ds₂ vdSource ds₃ hsource
  constructor
  · intro h
    obtain ⟨ds, st', ds', hrun, readers, writers, hconn⟩ := h.exists_run
    obtain ⟨_, _, hskipped, -⟩ := addSourcesAt_ends hclosed hsame hrun
    obtain ⟨hactor, hfires⟩ := addSourcesAt_needs hclosed hsame hrun
    refine ⟨fun hact => ?_, hactor, hfires⟩
    obtain ⟨hin, hout⟩ := hskipped hact
    exact ⟨hconn.inEdges_ne hact hin, hconn.outEdges_ne hact hout⟩
  · intro h
    have hactor : o.sourceActor ∨ o.inputCommunication ∨ o.outputCommunication → ∃ v, v ≠ vdSource ∧ (base o st).IsActor v := by
      intro hreq
      obtain ⟨v, hv⟩ := h.actor hreq
      exact ⟨v, (isActor_base hsame).mpr hv⟩
    have hreturns := returns_addSourcesAt (closed_base hclosed) (h.feedable hfire hsame) hactor
    refine (hreturns.and_ensures (fun ds st' ds' hrun => ?_)).mono fun _ h => h.2
    obtain ⟨readers, writers, -, hconn⟩ := addSourcesAt_ends hclosed hsame hrun
    exact ⟨readers, writers, hconn h.skipped⟩

end

def inputsOnly : Options := ⟨none, [("a", 1)], true, false, false, false, true, false⟩

/-- The second actor is skipped, which reads the channel of the first one. -/
theorem ends_connected_iff_reader : ∃ st₀ st st' ds₁ ds₂ ds₃ ds₄,
    clusterGraph inputsOnly [2, 2, 1, 1, 2, 1, 1, 3, 0, 1, 0, 0] = some (st₀, ds₁) ∧
    connectComponents (fun _ => (1, fun _ => 0)) inputsOnly.prefixOf st₀ ds₁ = some (st, ds₂) ∧
    sourceVertex inputsOnly st ds₂ = some (1, ds₃) ∧ addSourcesAt inputsOnly 1 st ds₃ = some (st', ds₄) ∧
    ∃ readers writers, EndsConnected inputsOnly 1 st.g st'.g readers writers := by
  have hrun : ((clusterGraph inputsOnly [2, 2, 1, 1, 2, 1, 1, 3, 0, 1, 0, 0]).bind fun r =>
      (connectComponents (fun _ => (1, fun _ => 0)) inputsOnly.prefixOf r.1 r.2).bind fun r₁ =>
        (sourceVertex inputsOnly r₁.1 r₁.2).map fun r₂ =>
          (r₂.1, r₂.2.length, (r₁.1.g.inEdges 1).length, decide (r₁.1.g.IsActor 0))) = some (1, 2, 1, true) := by
    decide +kernel
  obtain ⟨⟨st₀, ds₁⟩, hclusters, hrun⟩ := Option.bind_eq_some_iff.mp hrun
  obtain ⟨⟨st, ds₂⟩, hjoin, hrun⟩ := Option.bind_eq_some_iff.mp hrun
  obtain ⟨⟨vdSource, ds₃⟩, hsource, heq⟩ := Option.map_eq_some_iff.mp hrun
  obtain ⟨rfl, hlen, hread, hactor⟩ : vdSource = 1 ∧ ds₃.length = 2 ∧ (st.g.inEdges 1).length = 1 ∧
      decide (st.g.IsActor 0) = true := by simpa only [Prod.mk.injEq] using heq
  have hconn : Connectable inputsOnly 1 st.g := by
    refine ⟨fun _ => ⟨fun _ => ?_, fun hreq => absurd hreq (by decide)⟩, fun _ => ⟨0, by decide, of_decide_eq_true hactor⟩,
      fun hreq => absurd hreq (by decide)⟩
    exact List.ne_nil_of_length_pos (by omega)
  obtain ⟨st', ds₄, h, -, hends⟩ := (ends_connected_iff _ _ _ _ _ _ _ _ _ hclusters hjoin hsource).mpr hconn ds₃ hlen.ge
  exact ⟨st₀, st, st', ds₁, ds₂, ds₃, ds₄, hclusters, hjoin, hsource, h, hends⟩

/-- The first actor is skipped, which reads no channel, and the second one gets the input. -/
theorem input_misplaced : ∃ st₀ st st' ds₁ ds₂ ds₃ ds₄,
    clusterGraph inputsOnly [2, 2, 1, 1, 2, 1, 1, 3, 0, 0, 0] = some (st₀, ds₁) ∧
    connectComponents (fun _ => (1, fun _ => 0)) inputsOnly.prefixOf st₀ ds₁ = some (st, ds₂) ∧
    sourceVertex inputsOnly st ds₂ = some (0, ds₃) ∧ addSources inputsOnly st ds₂ = some (st', ds₄) ∧
    st.g.inEdges 0 = [] ∧ st'.g.inEdges 0 = [] ∧ (st.g.inEdges 1).length = 1 ∧ (st'.g.inEdges 1).length = 2 ∧
    ¬ ∃ readers writers, EndsConnected inputsOnly 0 st.g st'.g readers writers := by
  have hrun : ((clusterGraph inputsOnly [2, 2, 1, 1, 2, 1, 1, 3, 0, 0, 0]).bind fun r =>
      (connectComponents (fun _ => (1, fun _ => 0)) inputsOnly.prefixOf r.1 r.2).bind fun r₁ =>
        (sourceVertex inputsOnly r₁.1 r₁.2).bind fun r₂ => (addSources inputsOnly r₁.1 r₁.2).map fun r₃ =>
          (r₂.1, r₁.1.g.inEdges 0, r₃.1.g.inEdges 0, (r₁.1.g.inEdges 1).length, (r₃.1.g.inEdges 1).length,
            decide (r₁.1.g.IsActor 0))) = some (0, [], [], 1, 2, true) := by
    decide +kernel
  obtain ⟨⟨st₀, ds₁⟩, hclusters, hrun⟩ := Option.bind_eq_some_iff.mp hrun
  obtain ⟨⟨st, ds₂⟩, hjoin, hrun⟩ := Option.bind_eq_some_iff.mp hrun
  obtain ⟨⟨vdSource, ds₃⟩, hsource, hrun⟩ := Option.bind_eq_some_iff.mp hrun
  obtain ⟨⟨st', ds₄⟩, h, heq⟩ := Option.map_eq_some_iff.mp hrun
  obtain ⟨rfl, hnone, hnone', hone, htwo, hactor⟩ : vdSource = 0 ∧ st.g.inEdges 0 = [] ∧ st'.g.inEdges 0 = [] ∧
      (st.g.inEdges 1).length = 1 ∧ (st'.g.inEdges 1).length = 2 ∧ decide (st.g.IsActor 0) = true := by
    simpa only [Prod.mk.injEq] using heq
  refine ⟨st₀, st, st', ds₁, ds₂, ds₃, ds₄, hclusters, hjoin, hsource, h, hnone, hnone', hone, htwo, ?_⟩
  intro ⟨readers, writers, hconn⟩
  exact hconn.inEdges_ne (of_decide_eq_true hactor) (hnone'.trans hnone.symm) rfl hnone

end Generator

end SysteMoC.SNG
