import SysteMoC.TransformSound

/-!
# The readers of a transformed graph

The second pass adds the channels no actor writes and one edge for each copy an actor reads.
-/

namespace SysteMoC.SNG

section
variable {place : Nat → Copied} {es : List Edge} {e : Edge} {l : Copied} {ei : EdgeInfo}

theorem mergedRead_first (h : ∀ e' ∈ es, place e'.source ≠ place e.source) :
    mergedRead place (es ++ [e]) (place e.source) = some e.toEdgeInfo := by
  unfold mergedRead
  rw [Grouping.group_concat_self (f := fun e : Edge => place e.source), Grouping.group_eq_nil.mpr h]
  rfl

theorem mergedRead_next (h : mergedRead place es (place e.source) = some ei) :
    mergedRead place (es ++ [e]) (place e.source) = some (ei.merge e.toEdgeInfo) := by
  unfold mergedRead at *
  rw [Grouping.group_concat_self (f := fun e : Edge => place e.source), Grouping.fold_concat_of h]

theorem mergedRead_other (h : l ≠ place e.source) : mergedRead place (es ++ [e]) l = mergedRead place es l := by
  unfold mergedRead
  rw [Grouping.group_concat_of_ne (f := fun e : Edge => place e.source) h]

end

def Graph.place (g : Graph) (t : Merging) (u : Nat) : Copied :=
  (firstPlace t g.actors g.writes u).getD (.channel u)

/-- The copies have their places, and the edges of the reader `v` are known. -/
structure Placed (t : Merging) (g : Graph) (v : Nat) (Q : Nat → List Edge) (L : List Copied) (E : List Link)
    (s : ReadState) : Prop where
  described : Described (copiedInfo g t g.writes) (linkInfo t g.writes (g.place t) Q) L E s.gout
  written : ∀ l, IsWritten t g.actors g.writes l → l ∈ L
  map : ∀ u, s.vertexMap u = if g.place t u ∈ L then some (L.idxOf (g.place t u)) else none
  edges : ∀ l ∈ L, s.mergedEdges (L.idxOf l) = if Link.read l v ∈ E then some (E.idxOf (.read l v)) else none
  fresh : ∀ vd, L.length ≤ vd → s.mergedEdges vd = none

/-- After the readers `done` with the in-edges `Q`. -/
structure Reading (t : Merging) (g : Graph) (done : List Nat) (Q : Nat → List Edge) (L : List Copied)
    (E : List Link) : Prop where
  labels : ∀ l, l ∈ L ↔ IsWritten t g.actors g.writes l ∨ ∃ v ∈ done, ∃ e ∈ Q v, g.place t e.source = l
  links : ∀ k, k ∈ E ↔ match k with
    | .write v name => IsWritten t g.actors g.writes (.chan v name)
    | .read l v => v ∈ done ∧ ∃ e ∈ Q v, g.place t e.source = l

section
variable {t : Merging} {g : Graph} {v : Nat} {done : List Nat} {Q Q' : Nat → List Edge} {L : List Copied}
  {E : List Link} {s : ReadState} {e : Edge} {c : Nat} {vi : VertexInfo}

theorem Graph.place_eq_channel {u : Nat} (h : g.place t u = .channel c) : u = c := by
  unfold Graph.place at h
  cases hplace : firstPlace t g.actors g.writes u with
  | none =>
    rw [hplace] at h
    simpa using h
  | some l =>
    rw [hplace, Option.getD_some] at h
    subst h
    exact absurd (firstPlace_isWritten hplace) isWritten_channel

theorem Placed.chan (h : Placed t g v Q L E s) (hget : g.vertices[c]? = some vi) :
    ∃ s' L', readChan g s c = some (s', L'.idxOf (g.place t c)) ∧ Placed t g v Q L' E s' ∧
      (∀ l, l ∈ L' ↔ l ∈ L ∨ l = g.place t c) ∧ ∀ l ∈ L, L'.idxOf l = L.idxOf l := by
  unfold readChan
  rw [h.map]
  by_cases hmem : g.place t c ∈ L
  · rw [if_pos hmem]
    refine ⟨s, L, rfl, h, ?_, fun _ _ => rfl⟩
    intro l
    exact ⟨.inl, fun hl => hl.elim id fun heq => heq ▸ hmem⟩
  · have hchannel : g.place t c = .channel c := by
      unfold Graph.place at hmem ⊢
      cases hplace : firstPlace t g.actors g.writes c with
      | none => rfl
      | some l =>
        rw [hplace] at hmem
        exact absurd (h.written l (firstPlace_isWritten hplace)) hmem
    rw [if_neg hmem, hget]
    rw [hchannel] at hmem ⊢
    have hplace : (L ++ [Copied.channel c]).idxOf (.channel c) = s.gout.vertices.length :=
      h.described.vertices.place_concat hmem
    have hlen := h.described.vertices.length_eq
    refine ⟨⟨s.gout.addVertex vi, Function.update s.vertexMap c (some s.gout.vertices.length), s.mergedEdges⟩,
      L ++ [.channel c], ?_, ⟨?_, ?_, ?_, ?_, ?_⟩, ?_, ?_⟩
    · rw [hplace]
      rfl
    · exact h.described.addVertex hmem (fun _ _ => rfl) hget
    · intro l hl
      exact List.mem_append_left _ (h.written l hl)
    · intro u
      dsimp only
      by_cases hu : u = c
      · subst hu
        rw [Function.update_self, hchannel, if_pos (by simp), hplace]
      · have hne : g.place t u ≠ .channel c := fun heq => hu (Graph.place_eq_channel heq)
        rw [Function.update_of_ne hu, h.map]
        by_cases hplaced : g.place t u ∈ L
        · rw [if_pos hplaced, if_pos (List.mem_append_left _ hplaced), List.idxOf_append_of_mem hplaced]
        · rw [if_neg hplaced, if_neg (by simp [hplaced, hne])]
    · intro l hl
      rw [List.mem_append, List.mem_singleton] at hl
      obtain hl | rfl := hl
      · rw [List.idxOf_append_of_mem hl]
        exact h.edges l hl
      · have hno : Link.read (.channel c) v ∉ E := fun hk => hmem (h.described.ends _ hk).1
        rw [if_neg hno, hplace, hlen]
        exact h.fresh _ (Nat.le_refl _)
    · intro vd hvd
      rw [List.length_append, List.length_singleton] at hvd
      exact h.fresh vd (by omega)
    · intro l
      rw [List.mem_append, List.mem_singleton]
    · intro l hl
      exact List.idxOf_append_of_mem hl

theorem Placed.edge (h : Placed t g v Q L E s) (hactor : .actor v ∈ L) (hmem : g.place t e.source ∈ L)
    (hlink : Link.read (g.place t e.source) v ∈ E ↔ ∃ e' ∈ Q v, g.place t e'.source = g.place t e.source) :
    ∃ s' E', (match s.mergedEdges (L.idxOf (g.place t e.source)) with
      | none => some ⟨s.gout.addEdge (L.idxOf (g.place t e.source)) (L.idxOf (.actor v)) e.toEdgeInfo, s.vertexMap,
          Function.update s.mergedEdges (L.idxOf (g.place t e.source)) (some s.gout.edges.length)⟩
      | some edRead => do
        let edge ← s.gout.edges[edRead]?
        return { s with gout := ⟨s.gout.vertices,
          s.gout.edges.set edRead ⟨edge.toEdgeInfo.merge e.toEdgeInfo, edge.source, edge.target⟩⟩ }) = some s' ∧
      Placed t g v (Function.update Q v (Q v ++ [e])) L E' s' ∧
      ∀ k, k ∈ E' ↔ k ∈ E ∨ k = .read (g.place t e.source) v := by
  have hother : ∀ k, k ≠ Link.read (g.place t e.source) v →
      linkInfo t g.writes (g.place t) (Function.update Q v (Q v ++ [e])) k = linkInfo t g.writes (g.place t) Q k := by
    intro k hne
    cases k with
    | write u name => rfl
    | read l u =>
      rw [linkInfo_read, linkInfo_read]
      by_cases hu : u = v
      · subst hu
        rw [Function.update_self, mergedRead_other]
        intro heq
        exact hne (by rw [heq])
      · rw [Function.update_of_ne hu]
  rw [h.edges _ hmem]
  by_cases hk : Link.read (g.place t e.source) v ∈ E
  · rw [if_pos hk]
    obtain ⟨ei, hei⟩ : ∃ ei, mergedRead (g.place t) (Q v) (g.place t e.source) = some ei := by
      have hsome := h.described.edges.isSome hk
      rw [Option.isSome_map, linkInfo_read] at hsome
      exact Option.isSome_iff_exists.mp hsome
    have hedge := h.described.getEdge hk hei
    dsimp only
    rw [hedge]
    refine ⟨_, E, rfl, ⟨?_, h.written, h.map, h.edges, h.fresh⟩, ?_⟩
    · refine ⟨h.described.vertices, h.described.edges.set ?_ ?_, h.described.ends⟩
      · intro k _ hne
        rw [hother k hne]
      · rw [linkInfo_read, Function.update_self, mergedRead_next hei]
        rfl
    · intro k
      exact ⟨.inl, fun hor => hor.elim id fun heq => heq ▸ hk⟩
  · rw [if_neg hk]
    refine ⟨_, E ++ [.read (g.place t e.source) v], rfl, ⟨?_, h.written, h.map, ?_, ?_⟩, ?_⟩
    · refine h.described.addEdge hk ⟨hmem, hactor⟩ ?_ ?_
      · intro k hkE
        exact hother k fun heq => hk (heq ▸ hkE)
      · rw [linkInfo_read, Function.update_self, mergedRead_first]
        intro e' he' heq
        exact hk (hlink.mpr ⟨e', he', heq⟩)
    · intro l hl
      dsimp only
      by_cases heq : l = g.place t e.source
      · subst heq
        rw [Function.update_self, if_pos (by simp), h.described.edges.place_concat hk]
      · have hne : L.idxOf l ≠ L.idxOf (g.place t e.source) := fun hidx => heq ((List.idxOf_inj hl).mp hidx)
        rw [Function.update_of_ne hne, h.edges l hl]
        by_cases hkl : Link.read l v ∈ E
        · rw [if_pos hkl, if_pos (List.mem_append_left _ hkl), List.idxOf_append_of_mem hkl]
        · rw [if_neg hkl, if_neg (by simp [hkl, heq])]
    · intro vd hvd
      have hlt := List.idxOf_lt_length_iff.mpr hmem
      dsimp only
      rw [Function.update_of_ne (by omega)]
      exact h.fresh vd hvd
    · intro k
      rw [List.mem_append, List.mem_singleton]

theorem Reading.step (hr : Reading t g (done ++ [v]) Q L E) (hp : Placed t g v Q L E s) (hactor : g.IsActor v)
    (hget : g.vertices[e.source]? = some vi) :
    ∃ s' L' E', addRead g (L.idxOf (.actor v)) s e = some s' ∧
      Reading t g (done ++ [v]) (Function.update Q v (Q v ++ [e])) L' E' ∧
      Placed t g v (Function.update Q v (Q v ++ [e])) L' E' s' ∧ L'.idxOf (.actor v) = L.idxOf (.actor v) := by
  have hv : Copied.actor v ∈ L := hp.written _ (isWritten_actor.mpr (Graph.mem_actors.mpr hactor))
  obtain ⟨s₁, L', hchan, hp₁, hL', hidx⟩ := hp.chan hget
  have hlink : Link.read (g.place t e.source) v ∈ E ↔
      ∃ e' ∈ Q v, g.place t e'.source = g.place t e.source := by
    rw [hr.links]
    simp
  obtain ⟨s', E', hedge, hp', hE'⟩ := hp₁.edge ((hL' _).mpr (.inl hv)) ((hL' _).mpr (.inr rfl)) hlink
  rw [hidx _ hv] at hedge
  refine ⟨s', L', E', ?_, ⟨?_, ?_⟩, hp', hidx _ hv⟩
  · unfold addRead
    rw [hchan, Option.bind_eq_bind, Option.bind_some]
    exact hedge
  · intro l
    rw [hL', hr.labels, or_assoc]
    refine or_congr_right ?_
    constructor
    · intro h
      obtain ⟨u, hu, e', he', hl⟩ | rfl := h
      · refine ⟨u, hu, e', ?_, hl⟩
        by_cases huv : u = v
        · subst huv
          rw [Function.update_self]
          exact List.mem_append_left _ he'
        · rwa [Function.update_of_ne huv]
      · refine ⟨v, by simp, e, ?_, rfl⟩
        rw [Function.update_self]
        simp
    · intro ⟨u, hu, e', he', hl⟩
      by_cases huv : u = v
      · subst huv
        rw [Function.update_self, List.mem_append, List.mem_singleton] at he'
        obtain he' | rfl := he'
        · exact .inl ⟨u, hu, e', he', hl⟩
        · exact .inr hl.symm
      · rw [Function.update_of_ne huv] at he'
        exact .inl ⟨u, hu, e', he', hl⟩
  · intro k
    rw [hE', hr.links]
    cases k with
    | write u name => simp
    | read l u =>
      by_cases huv : u = v
      · subst huv
        dsimp only
        rw [Function.update_self]
        constructor
        · intro h
          obtain ⟨hu, e', he', hl⟩ | heq := h
          · exact ⟨hu, e', List.mem_append_left _ he', hl⟩
          · cases heq
            exact ⟨by simp, e, by simp, rfl⟩
        · intro ⟨hu, e', he', hl⟩
          rw [List.mem_append, List.mem_singleton] at he'
          obtain he' | rfl := he'
          · exact .inl ⟨hu, e', he', hl⟩
          · exact .inr (by rw [hl])
      · dsimp only
        rw [Function.update_of_ne huv]
        simp [huv]

theorem addReads_loop {es : List Edge} (hr : Reading t g (done ++ [v]) Q L E) (hp : Placed t g v Q L E s)
    (hactor : g.IsActor v) (hes : ∀ e ∈ es, ∃ vi, g.vertices[e.source]? = some vi) :
    ∃ s' L' E', es.foldlM (addRead g (L.idxOf (.actor v))) s = some s' ∧
      Reading t g (done ++ [v]) (Function.update Q v (Q v ++ es)) L' E' ∧
      Placed t g v (Function.update Q v (Q v ++ es)) L' E' s' := by
  induction es generalizing Q L E s with
  | nil =>
    refine ⟨s, L, E, rfl, ?_⟩
    rw [List.append_nil, Function.update_eq_self]
    exact ⟨hr, hp⟩
  | cons e es ih =>
    obtain ⟨vi, hget⟩ := hes e List.mem_cons_self
    obtain ⟨s₁, L₁, E₁, hs₁, hr₁, hp₁, hidx⟩ := hr.step hp hactor hget
    obtain ⟨s', L', E', hrun, hr', hp'⟩ := ih hr₁ hp₁ fun e he => hes e (List.mem_cons_of_mem _ he)
    refine ⟨s', L', E', ?_, ?_⟩
    · rw [List.foldlM_cons, hs₁, Option.bind_eq_bind, Option.bind_some, ← hidx]
      exact hrun
    · rw [Function.update_idem, Function.update_self, List.append_assoc] at hr' hp'
      exact ⟨hr', hp'⟩

structure Read (t : Merging) (g : Graph) (done : List Nat) (L : List Copied) (E : List Link) (s : Copying) : Prop
    extends Reading t g done g.inEdges L E where
  described : Described (copiedInfo g t g.writes) (linkInfo t g.writes (g.place t) g.inEdges) L E s.gout
  map : ∀ u, s.vertexMap u = if g.place t u ∈ L then some (L.idxOf (g.place t u)) else none

theorem Read.start {s : Copying} (h : Read t g done L E s) (hv : v ∉ done) :
    Reading t g (done ++ [v]) (Function.update g.inEdges v []) L E ∧
      Placed t g v (Function.update g.inEdges v []) L E ⟨s.gout, s.vertexMap, fun _ => none⟩ := by
  have hother : ∀ u ∈ done, Function.update g.inEdges v [] u = g.inEdges u := by
    intro u hu
    rw [Function.update_of_ne]
    intro heq
    exact hv (heq ▸ hu)
  have hno : ∀ l, Link.read l v ∉ E := fun l hl => hv ((h.links _).mp hl).1
  refine ⟨⟨?_, ?_⟩, ⟨?_, ?_, h.map, ?_, fun _ _ => rfl⟩⟩
  · intro l
    rw [h.labels]
    refine or_congr_right ?_
    constructor
    · intro ⟨u, hu, hread⟩
      exact ⟨u, List.mem_append_left _ hu, (hother u hu).symm ▸ hread⟩
    · intro ⟨u, hu, hread⟩
      rw [List.mem_append, List.mem_singleton] at hu
      obtain hu | rfl := hu
      · exact ⟨u, hu, hother u hu ▸ hread⟩
      · simp at hread
  · intro k
    rw [h.links]
    cases k with
    | write u name => rfl
    | read l u =>
      dsimp only
      constructor
      · intro ⟨hu, hread⟩
        exact ⟨List.mem_append_left _ hu, (hother u hu).symm ▸ hread⟩
      · intro ⟨hu, hread⟩
        rw [List.mem_append, List.mem_singleton] at hu
        obtain hu | rfl := hu
        · exact ⟨hu, hother u hu ▸ hread⟩
        · simp at hread
  · refine h.described.congr (fun _ _ => rfl) ?_
    intro k hk
    cases k with
    | write u name => rfl
    | read l u => rw [linkInfo_read, linkInfo_read, hother u ((h.links _).mp hk).1]
  · intro l hl
    exact (h.labels l).mpr (.inl hl)
  · intro l _
    rw [if_neg (hno l)]

theorem addReads_spec {s : Copying} {vs : List Nat} (hbip : g.Bipartite) (h : Read t g done L E s)
    (hvs : (done ++ vs).Nodup) :
    ∃ s' L' E', vs.foldlM (addReads g) s = some s' ∧
      Read t g (done ++ vs.filter fun v => g.IsActor v) L' E' s' := by
  induction vs generalizing done L E s with
  | nil => exact ⟨s, L, E, rfl, by simpa using h⟩
  | cons v vs ih =>
    by_cases hv : g.IsActor v
    · have hnew : v ∉ done := by
        intro hmem
        rw [List.nodup_append] at hvs
        exact hvs.2.2 v hmem v List.mem_cons_self rfl
      obtain ⟨hr, hp⟩ := h.start hnew
      have hes : ∀ e ∈ g.inEdges v, ∃ vi, g.vertices[e.source]? = some vi := by
        intro e he
        obtain ⟨vi, hget, _⟩ := hbip.inEdge hv he
        exact ⟨vi, hget⟩
      obtain ⟨s₁, L₁, E₁, hrun, hr₁, hp₁⟩ := addReads_loop hr hp hv hes
      rw [Function.update_idem, Function.update_self, List.nil_append, Function.update_eq_self] at hr₁ hp₁
      have hread : Read t g (done ++ [v]) L₁ E₁ ⟨s₁.gout, s₁.vertexMap⟩ := ⟨hr₁, hp₁.described, hp₁.map⟩
      obtain ⟨s', L', E', hrest, hdone⟩ := ih hread (by simpa using hvs)
      refine ⟨s', L', E', ?_, ?_⟩
      · have hactor : Copied.actor v ∈ L :=
          (h.labels _).mpr (.inl (isWritten_actor.mpr (Graph.mem_actors.mpr hv)))
        have hplace : g.place t v = .actor v := by
          unfold Graph.place firstPlace
          rw [if_pos (Graph.mem_actors.mpr hv)]
          rfl
        have hone : addReads g s v = some ⟨s₁.gout, s₁.vertexMap⟩ := by
          unfold addReads
          rw [if_pos hv, h.map, hplace, if_pos hactor, Option.bind_eq_bind, Option.bind_some, hrun]
          rfl
        rw [List.foldlM_cons, hone]
        exact hrest
      · rw [List.filter_cons_of_pos (by simpa using hv)]
        simpa using hdone
    · have hone : addReads g s v = some s := by
        unfold addReads
        rw [if_neg hv]
      rw [List.foldlM_cons, hone, List.filter_cons_of_neg (by simpa using hv)]
      refine ih h ?_
      rw [List.nodup_append] at hvs ⊢
      exact ⟨hvs.1, (List.nodup_cons.mp hvs.2.1).2, fun a ha b hb => hvs.2.2 a ha b (List.mem_cons_of_mem _ hb)⟩

end

/-- The result of a transformation by its labels. -/
structure Transformed (t : Merging) (g : Graph) (L : List Copied) (E : List Link) (gout : Graph) : Prop
    extends Reading t g g.actors g.inEdges L E where
  described : Described (copiedInfo g t g.writes) (linkInfo t g.writes (g.place t) g.inEdges) L E gout

section
variable {t : Merging} {g gout : Graph} {L : List Copied} {E : List Link}

theorem Written.read {vertexMap : Nat → Option Nat} (h : Written t g g.actors g.writes L E gout vertexMap) :
    Read t g [] L E ⟨gout, vertexMap⟩ := by
  refine ⟨⟨?_, ?_⟩, h.described _ _, ?_⟩
  · intro l
    rw [h.labels]
    simp
  · intro k
    rw [h.links]
    cases k with
    | write v name => exact h.labels _
    | read l v => simp
  · intro u
    dsimp only
    rw [h.map]
    unfold Graph.place
    cases hplace : firstPlace t g.actors g.writes u with
    | none =>
      rw [Option.getD_none, if_neg fun hl => isWritten_channel ((h.labels _).mp hl)]
      rfl
    | some l =>
      rw [Option.getD_some, if_pos ((h.labels l).mpr (firstPlace_isWritten hplace))]
      rfl

theorem transformFifos_transformed (hbip : g.Bipartite) (h : transformFifos g t = some gout) :
    ∃ L E, Transformed t g L E gout := by
  unfold transformFifos at h
  obtain ⟨s₁, hs₁, h⟩ := Option.bind_eq_some_iff.mp h
  obtain ⟨s₂, hs₂, h⟩ := Option.bind_eq_some_iff.mp h
  cases h
  obtain ⟨L₁, E₁, hwritten⟩ := (addActors_spec hbip Written.empty (by simp) List.nodup_range).1 s₁ hs₁
  rw [List.nil_append] at hwritten
  obtain ⟨s', L, E, hrun, hread⟩ := addReads_spec hbip hwritten.read List.nodup_range
  rw [List.nil_append] at hread
  obtain rfl := Option.some.inj (hrun.symm.trans hs₂)
  exact ⟨L, E, hread.toReading, hread.described⟩

theorem transformFifos_isSome (hbip : g.Bipartite) (hmerges : ∀ v, g.IsActor v → Merges t (g.writes v)) :
    (transformFifos g t).isSome := by
  have hnodup : ([] ++ List.range g.vertices.length).Nodup := List.nodup_range
  obtain ⟨hsome, hrun⟩ := addActors_spec (t := t) hbip Written.empty (by simp) hnodup
  obtain ⟨s₁, hs₁⟩ := Option.isSome_iff_exists.mp (hrun fun v _ hv => hmerges v hv)
  obtain ⟨L₁, E₁, hwritten⟩ := hsome s₁ hs₁
  rw [List.nil_append] at hwritten
  obtain ⟨s', _, _, hrun, _⟩ := addReads_spec hbip hwritten.read hnodup
  unfold transformFifos
  rw [hs₁, Option.bind_eq_bind, Option.bind_some, hrun]
  rfl

theorem Transformed.merges (h : Transformed t g L E gout) {v : Nat} (hv : g.IsActor v) : Merges t (g.writes v) := by
  intro w hw
  have hlab : Copied.chan v (w.chanName t) ∈ L :=
    (h.labels _).mpr (.inl ⟨Graph.mem_actors.mpr hv, w, hw, rfl⟩)
  have hsome := h.described.vertices.isSome hlab
  rwa [copiedInfo_chan, Option.isSome_map] at hsome

end

end SysteMoC.SNG
