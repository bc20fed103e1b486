import SysteMoC.TransformMerge
import SysteMoC.SngRoundTrip

/-!
# Who feeds whom in a transformed graph

The readers of a channel are connected to the copy of its first writer. So the same actors
feed each other just when each of them is the first writer of a channel the other reads.
-/

namespace SysteMoC.SNG

def Merging.transform : Merging → Transform
  | .sameContent => .fifosSameContentMerging
  | .sameProducer => .fifosSameProducerMerging

namespace Graph

instance (g : Graph) (u v : Nat) : Decidable (g.HasEdge u v) := inferInstanceAs (Decidable (∃ e ∈ g.edges, _))

/-- `A` writes a channel that `B` reads. -/
def Feeds (g : Graph) (A B : Nat) : Prop := ∃ c, g.IsChannel c ∧ g.HasEdge A c ∧ g.HasEdge c B

def firstWriter (g : Graph) (c : Nat) : Option Nat := g.actors.find? fun v => g.HasEdge v c

def channel? (g : Graph) (c : Nat) : Option (String × OrigChanInfo) := g.vertices[c]?.bind (·.type.chan?)

structure Mergeable (g : Graph) : Prop where
  sizes : ∀ v, g.IsActor v → ∀ e ∈ g.outEdges v, ∀ e' ∈ g.outEdges v, e.name = e'.name →
    ∀ kind orig orig', g.channel? e.target = some (kind, orig) → g.channel? e'.target = some (kind, orig') →
      orig.tokenSize = orig'.tokenSize
  readers : ∀ A B, g.IsActor A → g.IsActor B → g.Feeds A B → ∃ c, g.firstWriter c = some A ∧ g.HasEdge c B

end Graph

/-- The actors of `gout` are the copies of the actors of `g`, one of each. -/
structure CopiesActors (g gout : Graph) (copy : Nat → Nat) : Prop where
  info : ∀ v, g.IsActor v → gout.vertices[copy v]? = g.vertices[v]?
  inj : ∀ v w, g.IsActor v → g.IsActor w → copy v = copy w → v = w
  onto : ∀ u, gout.IsActor u → ∃ v, g.IsActor v ∧ copy v = u

def PreservesFeeding (g : Graph) (t : Transform) : Prop :=
  ∃ gout copy, transform g t = some gout ∧ CopiesActors g gout copy ∧ gout.Bipartite ∧
    ∀ A B, g.IsActor A → g.IsActor B → (g.Feeds A B ↔ gout.Feeds (copy A) (copy B))

section
variable {t : Merging} {g gout : Graph} {L : List Copied} {E : List Link} {c u v A B : Nat}

theorem transform_merging : transform g t.transform = transformFifos g t := by
  cases t <;> rfl

/-! ## First writers -/

theorem Graph.mem_writes_iff (hbip : g.Bipartite) (hv : g.IsActor v) : (∃ w ∈ g.writes v, w.vdChan = c) ↔ g.HasEdge v c := by
  obtain ⟨name, repCount, hget⟩ := hv.info
  constructor
  · intro ⟨w, hw, hc⟩
    obtain ⟨e, he, hread⟩ := (Graph.mem_writes hget).mp hw
    obtain ⟨he, hsrc⟩ := Graph.mem_outEdges.mp he
    exact ⟨e, he, hsrc, (readWrite_some hread).1.symm.trans hc⟩
  · intro ⟨e, he, hsrc, htgt⟩
    have hout : e ∈ g.outEdges v := Graph.mem_outEdges.mpr ⟨he, hsrc⟩
    obtain ⟨w, hread⟩ := readWrite_of_isChannel (hbip.outEdge hv hout) ⟨name, .actor repCount⟩
    exact ⟨w, (Graph.mem_writes hget).mpr ⟨e, hout, hread⟩, (readWrite_some hread).1.trans htgt⟩

theorem findSome?_chan {as : List Nat} {P : Nat → List Write} {p : Nat → Bool}
    (hp : ∀ v ∈ as, (∃ w ∈ P v, w.vdChan = c) ↔ p v = true) :
    (∃ name, (as.findSome? fun v => ((P v).find? (·.vdChan = c)).map fun w => Copied.chan v (w.chanName t)) =
      some (.chan A name)) ↔ as.find? p = some A := by
  induction as with
  | nil => simp
  | cons v as ih =>
    have hv := hp v List.mem_cons_self
    rw [List.findSome?_cons, List.find?_cons]
    cases hfind : (P v).find? (·.vdChan = c) with
    | none =>
      have hno : p v = false := by
        rw [List.find?_eq_none] at hfind
        rw [← Bool.not_eq_true, ← hv]
        intro ⟨w, hw, hc⟩
        exact hfind w hw (by simpa using hc)
      rw [hno]
      exact ih fun v hv => hp v (List.mem_cons_of_mem _ hv)
    | some w =>
      have hyes : p v = true := hv.mp ⟨w, List.mem_of_find?_eq_some hfind, by simpa using List.find?_some hfind⟩
      rw [hyes]
      constructor
      · intro ⟨name, heq⟩
        cases heq
        rfl
      · intro heq
        cases heq
        exact ⟨_, rfl⟩

theorem place_chan_iff (hbip : g.Bipartite) (hc : ¬ g.IsActor c) :
    (∃ name, g.place t c = .chan A name) ↔ g.firstWriter c = some A := by
  unfold Graph.firstWriter
  rw [← findSome?_chan (t := t) (P := g.writes) (c := c)]
  · unfold Graph.place firstPlace
    rw [if_neg fun hmem => hc (Graph.mem_actors.mp hmem)]
    constructor
    · intro ⟨name, hplace⟩
      refine ⟨name, ?_⟩
      cases hfind : g.actors.findSome? fun v => ((g.writes v).find? (·.vdChan = c)).map
          fun w => Copied.chan v (w.chanName t) with
      | none =>
        rw [hfind] at hplace
        cases hplace
      | some l =>
        rw [hfind] at hplace
        rw [← hplace]
        rfl
    · intro ⟨name, hfind⟩
      rw [hfind]
      exact ⟨name, rfl⟩
  · intro v hv
    rw [decide_eq_true_eq]
    exact Graph.mem_writes_iff hbip (Graph.mem_actors.mp hv)

theorem Graph.firstWriter_some (h : g.firstWriter c = some A) : g.IsActor A ∧ g.HasEdge A c :=
  ⟨Graph.mem_actors.mp (List.mem_of_find?_eq_some h), by simpa using List.find?_some h⟩

/-! ## The labels of the result -/

theorem place_actor (h : g.place t u = .actor v) : u = v ∧ g.IsActor v := by
  unfold Graph.place firstPlace at h
  by_cases hu : u ∈ g.actors
  · rw [if_pos hu] at h
    cases h
    exact ⟨rfl, Graph.mem_actors.mp hu⟩
  · rw [if_neg hu] at h
    cases hfind : g.actors.findSome? fun v => ((g.writes v).find? (·.vdChan = u)).map
        fun w => Copied.chan v (w.chanName t) with
    | none =>
      rw [hfind] at h
      cases h
    | some l =>
      rw [hfind, Option.getD_some] at h
      subst h
      obtain ⟨v', _, hl⟩ := List.exists_of_findSome?_eq_some hfind
      obtain ⟨w, _, hl⟩ := Option.map_eq_some_iff.mp hl
      cases hl

namespace Transformed

variable (h : Transformed t g L E gout) (hbip : g.Bipartite)
include h hbip

omit hbip in
theorem actor_mem : .actor v ∈ L ↔ g.IsActor v := by
  rw [h.labels, isWritten_actor, Graph.mem_actors]
  constructor
  · intro hor
    obtain hv | ⟨_, _, e, _, hplace⟩ := hor
    · exact hv
    · exact (place_actor hplace).2
  · exact .inl

theorem channel_mem (hc : .channel c ∈ L) : g.IsChannel c := by
  obtain hno | ⟨v, hv, e, he, hplace⟩ := (h.labels _).mp hc
  · exact absurd hno isWritten_channel
  · obtain rfl := Graph.place_eq_channel hplace
    exact hbip.inEdge (Graph.mem_actors.mp hv) he

omit hbip in
theorem merged_some {name : String} (hl : .chan v name ∈ L) :
    ∃ m, merged t (g.writes v) name = some m ∧ m.viMergedChan.type.chan?.isSome ∧
      gout.vertices[L.idxOf (.chan v name)]? = some m.viMergedChan := by
  have hwritten : g.IsActor v := by
    obtain ⟨hv, _⟩ | ⟨_, _, e, _, hplace⟩ := (h.labels _).mp hl
    · exact Graph.mem_actors.mp hv
    · unfold Graph.place at hplace
      cases hfirst : firstPlace t g.actors g.writes e.source with
      | none =>
        rw [hfirst] at hplace
        cases hplace
      | some l =>
        rw [hfirst, Option.getD_some] at hplace
        subst hplace
        exact Graph.mem_actors.mp (firstPlace_isWritten hfirst).1
  obtain ⟨vi, r, hget⟩ := hwritten.info
  have hsome := h.described.vertices.isSome hl
  rw [copiedInfo_chan, Option.isSome_map] at hsome
  obtain ⟨m, hm⟩ := Option.isSome_iff_exists.mp hsome
  refine ⟨m, hm, ?_, ?_⟩
  · have hsized := (mergedOf (Graph.writes_of hget) hm).sized
    cases htype : m.viMergedChan.type with
    | actor r =>
      rw [htype] at hsized
      cases hsized
    | fifo => rfl
    | register => rfl
  · rw [h.described.getVertex hl, copiedInfo_chan, hm]
    rfl

theorem isActor_iff : gout.IsActor u ↔ ∃ v, g.IsActor v ∧ L.idxOf (.actor v) = u := by
  constructor
  · intro hact
    obtain ⟨name, r, hget⟩ := hact.info
    obtain ⟨l, hl, rfl, hinfo⟩ := h.described.vertices.of_get hget
    cases l with
    | actor v => exact ⟨v, h.actor_mem.mp hl, rfl⟩
    | chan v name =>
      obtain ⟨m, _, hchan, hvertex⟩ := h.merged_some hl
      rw [hget] at hvertex
      rw [← Option.some.inj hvertex] at hchan
      cases hchan
    | channel c => exact absurd (Graph.isActor_of_get hinfo) (h.channel_mem hbip hl).not_isActor
  · intro ⟨v, hv, hidx⟩
    obtain ⟨name, r, hget⟩ := hv.info
    have hvertex := h.described.getVertex (h.actor_mem.mpr hv)
    rw [hidx, copiedInfo_actor, hget] at hvertex
    exact Graph.isActor_of_get hvertex

theorem isChannel {l : Copied} (hl : l ∈ L) (hno : ∀ v, l ≠ .actor v) : gout.IsChannel (L.idxOf l) := by
  cases l with
  | actor v => exact absurd rfl (hno v)
  | chan v name =>
    obtain ⟨m, _, hchan, hvertex⟩ := h.merged_some hl
    exact ⟨_, hvertex, hchan⟩
  | channel c =>
    obtain ⟨vi, hget, hchan⟩ := h.channel_mem hbip hl
    refine ⟨vi, ?_, hchan⟩
    rw [h.described.getVertex hl, copiedInfo_channel, hget]

theorem read_link {l : Copied} (hk : Link.read l v ∈ E) :
    g.IsActor v ∧ l ∈ L ∧ (∀ u, l ≠ .actor u) ∧ ∃ e ∈ g.inEdges v, g.place t e.source = l := by
  obtain ⟨hv, e, he, hplace⟩ := (h.links _).mp hk
  have hact := Graph.mem_actors.mp hv
  refine ⟨hact, (h.described.ends _ hk).1, ?_, e, he, hplace⟩
  intro u heq
  rw [heq] at hplace
  obtain ⟨rfl, hu⟩ := place_actor hplace
  exact (hbip.inEdge hact he).not_isActor hu

theorem copies : CopiesActors g gout fun v => L.idxOf (.actor v) := by
  refine ⟨?_, ?_, ?_⟩
  · intro v hv
    rw [h.described.getVertex (h.actor_mem.mpr hv), copiedInfo_actor]
  · intro v w hv _ heq
    have hinj := (List.idxOf_inj (h.actor_mem.mpr hv)).mp heq
    cases hinj
    rfl
  · intro u hu
    exact (h.isActor_iff hbip).mp hu

omit hbip in
theorem mem_edges {e : Edge} : e ∈ gout.edges ↔
    ∃ k ∈ E, ∃ ei, linkInfo t g.writes (g.place t) g.inEdges k = some ei ∧
      e = ⟨ei, L.idxOf k.source, L.idxOf k.target⟩ := by
  constructor
  · intro he
    obtain ⟨k, hk, hinfo⟩ := h.described.edges.of_mem he
    obtain ⟨ei, hei, rfl⟩ := Option.map_eq_some_iff.mp hinfo
    exact ⟨k, hk, ei, hei, rfl⟩
  · intro ⟨k, hk, ei, hei, heq⟩
    subst heq
    exact h.described.edges.mem hk (by rw [hei]; rfl)

omit hbip in
theorem hasEdge_iff {a b : Nat} : gout.HasEdge a b ↔ ∃ k ∈ E, L.idxOf k.source = a ∧ L.idxOf k.target = b := by
  constructor
  · intro ⟨e, he, hsrc, htgt⟩
    obtain ⟨k, hk, ei, _, rfl⟩ := h.mem_edges.mp he
    exact ⟨k, hk, hsrc, htgt⟩
  · intro ⟨k, hk, hsrc, htgt⟩
    have hsome := h.described.edges.isSome hk
    rw [Option.isSome_map] at hsome
    obtain ⟨ei, hei⟩ := Option.isSome_iff_exists.mp hsome
    exact ⟨_, h.mem_edges.mpr ⟨k, hk, ei, hei, rfl⟩, hsrc, htgt⟩

theorem bipartite : gout.Bipartite := by
  intro e he
  obtain ⟨k, hk, ei, _, rfl⟩ := h.mem_edges.mp he
  obtain ⟨hsrc, htgt⟩ := h.described.ends k hk
  cases k with
  | write v name =>
    refine .inl ⟨(h.isActor_iff hbip).mpr ⟨v, h.actor_mem.mp hsrc, rfl⟩, h.isChannel hbip htgt ?_⟩
    intro u heq
    cases heq
  | read l v =>
    obtain ⟨hv, _, hno, _⟩ := h.read_link hbip hk
    exact .inr ⟨h.isChannel hbip hsrc hno, (h.isActor_iff hbip).mpr ⟨v, hv, rfl⟩⟩

theorem feeds_iff (hB : g.IsActor B) :
    gout.Feeds (L.idxOf (.actor A)) (L.idxOf (.actor B)) ↔ ∃ c, g.firstWriter c = some A ∧ g.HasEdge c B := by
  constructor
  · intro ⟨c', _, hwrite, hread⟩
    obtain ⟨k, hk, hsrc, htgt⟩ := h.hasEdge_iff.mp hwrite
    obtain ⟨k', hk', hsrc', htgt'⟩ := h.hasEdge_iff.mp hread
    have hkA := (List.idxOf_inj (h.described.ends k hk).1).mp hsrc
    have hkB := (List.idxOf_inj (h.described.ends k' hk').2).mp htgt'
    have hmid := (List.idxOf_inj (h.described.ends k hk).2).mp (htgt.trans hsrc'.symm)
    cases k with
    | read l v => exact absurd hkA ((h.read_link hbip hk).2.2.1 A)
    | write v name =>
      cases hkA
      cases k' with
      | write v' name' => cases hkB
      | read l v =>
        cases hkB
        obtain ⟨_, _, _, e, he, hplace⟩ := h.read_link hbip hk'
        refine ⟨e.source, (place_chan_iff hbip (hbip.inEdge hB he).not_isActor).mp ⟨name, hplace.trans hmid.symm⟩, ?_⟩
        obtain ⟨hmem, htgt⟩ := Graph.mem_inEdges.mp he
        exact ⟨e, hmem, rfl, htgt⟩
  · intro ⟨c, hfirst, e, hmem, hsrc, htgt⟩
    subst hsrc
    have he : e ∈ g.inEdges B := Graph.mem_inEdges.mpr ⟨hmem, htgt⟩
    obtain ⟨name, hplace⟩ := (place_chan_iff (t := t) hbip (hbip.inEdge hB he).not_isActor).mpr hfirst
    have hread : Link.read (.chan A name) B ∈ E := (h.links _).mpr ⟨Graph.mem_actors.mpr hB, e, he, hplace⟩
    have hl := (h.described.ends _ hread).1
    have hwrite : Link.write A name ∈ E := by
      rw [h.links]
      unfold Graph.place at hplace
      cases hfp : firstPlace t g.actors g.writes e.source with
      | none =>
        rw [hfp] at hplace
        cases hplace
      | some l =>
        rw [hfp, Option.getD_some] at hplace
        subst hplace
        exact firstPlace_isWritten hfp
    refine ⟨L.idxOf (.chan A name), h.isChannel hbip hl ?_, h.hasEdge_iff.mpr ⟨_, hwrite, rfl, rfl⟩,
      h.hasEdge_iff.mpr ⟨_, hread, rfl, rfl⟩⟩
    intro u heq
    cases heq

end Transformed

/-! ## When the feeding is preserved -/

theorem Graph.writes_channel {w : Write} {name : String} {repCount : Nat}
    (hget : g.vertices[v]? = some ⟨name, .actor repCount⟩) (hw : w ∈ g.writes v) :
    ∃ e ∈ g.outEdges v, readWrite g ⟨name, .actor repCount⟩ e = some w ∧ w.eiEdge.name = e.name ∧
      ∃ kind, w.viChan.type.kind? = some kind ∧ g.channel? e.target = some (kind, w.orig) := by
  obtain ⟨e, he, hread⟩ := (Graph.mem_writes hget).mp hw
  obtain ⟨_, hei, htgt, kind, hchan, _⟩ := readWrite_some hread
  refine ⟨e, he, hread, by rw [hei], kind, ?_, ?_⟩
  · unfold VertexType.kind?
    rw [hchan]
    rfl
  · unfold Graph.channel?
    rw [htgt]
    exact hchan

theorem sizes_iff (hv : g.IsActor v) (hbip : g.Bipartite) : SameSize (g.writes v) ↔
    ∀ e ∈ g.outEdges v, ∀ e' ∈ g.outEdges v, e.name = e'.name →
      ∀ kind orig orig', g.channel? e.target = some (kind, orig) → g.channel? e'.target = some (kind, orig') →
        orig.tokenSize = orig'.tokenSize := by
  obtain ⟨name, r, hget⟩ := hv.info
  have hof := Graph.writes_of hget
  constructor
  · intro hsame e he e' he' hname kind orig orig' hchan hchan'
    obtain ⟨w, hw⟩ := readWrite_of_isChannel (hbip.outEdge hv he) ⟨name, .actor r⟩
    obtain ⟨w', hw'⟩ := readWrite_of_isChannel (hbip.outEdge hv he') ⟨name, .actor r⟩
    obtain ⟨_, hei, htgt, kind₁, hchan₁, _⟩ := readWrite_some hw
    obtain ⟨_, hei', htgt', kind₂, hchan₂, _⟩ := readWrite_some hw'
    unfold Graph.channel? at hchan hchan'
    rw [htgt, Option.bind_some, hchan₁] at hchan
    rw [htgt', Option.bind_some, hchan₂] at hchan'
    cases hchan
    cases hchan'
    refine hsame w ((Graph.mem_writes hget).mpr ⟨e, he, hw⟩) w' ((Graph.mem_writes hget).mpr ⟨e', he', hw'⟩) ?_
    refine ((readWrite_of hw).content_eq_iff (readWrite_of hw')).mpr ⟨?_, ?_⟩
    · unfold VertexType.kind?
      rw [hchan₁, hchan₂]
      rfl
    · rw [hei, hei']
      exact hname
  · intro hsizes w hw w' hw' heq
    obtain ⟨hkind, hport⟩ := ((hof w hw).content_eq_iff (hof w' hw')).mp heq
    obtain ⟨e, he, _, hname, kind, hk, hchan⟩ := Graph.writes_channel hget hw
    obtain ⟨e', he', _, hname', kind', hk', hchan'⟩ := Graph.writes_channel hget hw'
    rw [hk, hk', Option.some.injEq] at hkind
    subst hkind
    exact hsizes e he e' he' (by rw [← hname, ← hname', hport]) kind _ _ hchan hchan'

theorem preserves_of_mergeable (hbip : g.Bipartite) (hmerge : g.Mergeable) : PreservesFeeding g t.transform := by
  have hmerges : ∀ v, g.IsActor v → Merges t (g.writes v) := by
    intro v hv
    obtain ⟨name, r, hget⟩ := hv.info
    exact (merges_iff (Graph.writes_of hget)).mpr ((sizes_iff hv hbip).mpr (hmerge.sizes v hv))
  obtain ⟨gout, hgout⟩ := Option.isSome_iff_exists.mp (transformFifos_isSome hbip hmerges)
  obtain ⟨L, E, h⟩ := transformFifos_transformed hbip hgout
  refine ⟨gout, _, transform_merging.trans hgout, h.copies hbip, h.bipartite hbip, ?_⟩
  intro A B hA hB
  rw [h.feeds_iff hbip hB]
  constructor
  · exact hmerge.readers A B hA hB
  · intro ⟨c, hfirst, e, he, hsrc, htgt⟩
    refine ⟨c, ?_, (Graph.firstWriter_some hfirst).2, e, he, hsrc, htgt⟩
    rw [← hsrc]
    exact hbip.inEdge hB (Graph.mem_inEdges.mpr ⟨he, htgt⟩)

theorem mergeable_of_preserves (hbip : g.Bipartite)
    (hnames : ∀ v w, g.IsActor v → g.IsActor w → g.vertices[v]? = g.vertices[w]? → v = w)
    (h : PreservesFeeding g t.transform) : g.Mergeable := by
  obtain ⟨gout, copy, hgout, hcopies, _, hfeeds⟩ := h
  rw [transform_merging] at hgout
  obtain ⟨L, E, h⟩ := transformFifos_transformed hbip hgout
  have hcopy : ∀ v, g.IsActor v → copy v = L.idxOf (.actor v) := by
    intro v hv
    have hinfo := hcopies.info v hv
    obtain ⟨name, r, hget⟩ := hv.info
    obtain ⟨u, hu, hidx⟩ := (h.isActor_iff hbip).mp (Graph.isActor_of_get (hinfo.trans hget))
    have hcopied := (h.copies hbip).info u hu
    rw [hidx, hinfo] at hcopied
    rw [hnames v u hv hu hcopied, hidx, hnames v u hv hu hcopied]
  refine ⟨?_, ?_⟩
  · intro v hv
    obtain ⟨name, r, hget⟩ := hv.info
    exact (sizes_iff hv hbip).mp ((merges_iff (Graph.writes_of hget)).mp (h.merges hv))
  · intro A B hA hB hfeed
    have hout := (hfeeds A B hA hB).mp hfeed
    rw [hcopy A hA, hcopy B hB] at hout
    exact (h.feeds_iff hbip hB).mp hout

end

/-! ## Loaded graphs -/

namespace Net

variable {n : Net}

theorem Ok.isChannel (h : n.Ok) {i : Nat} {ch : Chan} (hi : n.chans[i]? = some ch) :
    n.graph.IsChannel (n.actors.length + i) := by
  refine ⟨ch.info, vertices_chan hi, ?_⟩
  have hmem := List.mem_of_getElem? hi
  unfold Net.chans at hmem
  rw [List.mem_append] at hmem
  obtain hfifo | hreg := hmem
  · obtain ⟨capacity, delay, htype, _⟩ := (h.fifos ch hfifo).type
    rw [htype]
    rfl
  · have htype := h.registers ch hreg
    unfold Chan.IsRegister at htype
    rw [htype]
    rfl

theorem Ok.bipartite (h : n.Ok) : n.graph.Bipartite := by
  intro e he
  obtain ⟨i, ch, hi, ⟨hsrc, hlt⟩ | ⟨htgt, hlt⟩⟩ := h.mem_edges he
  · refine .inl ⟨(isActor_iff h).mpr hlt, ?_⟩
    rw [(mem_sourceEdges hsrc).2.1]
    exact h.isChannel hi
  · refine .inr ⟨?_, (isActor_iff h).mpr hlt⟩
    rw [(mem_targetEdges htgt).2.1]
    exact h.isChannel hi

theorem Ok.names_inj (h : n.Ok) (v w : Nat) (hv : n.graph.IsActor v) (hw : n.graph.IsActor w)
    (heq : n.graph.vertices[v]? = n.graph.vertices[w]?) : v = w := by
  have hv := (isActor_iff h).mp hv
  have hw := (isActor_iff h).mp hw
  rw [vertices_actor hv, vertices_actor hw] at heq
  simp only [actorInfo, Option.some.injEq, VertexInfo.mk.injEq, and_true] at heq
  exact (List.Nodup.getElem_inj_iff h.nodup).mp heq

end Net

/-- For which loaded graphs the same actors feed each other after merging. -/
theorem feeding_preserved_iff (doc : NetworkGraph) (hvalid : doc.valid = true) (g : Graph)
    (hload : loadSNG doc = some g) (t : Merging) : PreservesFeeding g t.transform ↔ g.Mergeable := by
  obtain ⟨n, hok, rfl⟩ := loadSNG_net hvalid hload
  exact ⟨mergeable_of_preserves hok.bipartite hok.names_inj, preserves_of_mergeable hok.bipartite⟩

theorem feeding_preserved_line :
    ∃ g, loadSNG lineDoc = some g ∧ (PreservesFeeding g Merging.sameProducer.transform ↔ g.Mergeable) := by
  have hsome : (loadSNG lineDoc).isSome := by decide +kernel
  obtain ⟨g, hload⟩ := Option.isSome_iff_exists.mp hsome
  exact ⟨g, hload, feeding_preserved_iff lineDoc (by decide +kernel) g hload .sameProducer⟩

def sharedDoc : NetworkGraph :=
  ⟨[sendType, receiveType],
    [⟨some "tx.a", some "Send"⟩, ⟨some "tx.b", some "Send"⟩, ⟨some "rx.c", some "Receive"⟩],
    [⟨.register, some "r", none, none, [tokenSizeAttr 8], [⟨some "tx.a", some "o"⟩, ⟨some "tx.b", some "o"⟩],
      [⟨some "rx.c", some "i"⟩]⟩]⟩

def sharedGraph : Graph :=
  ⟨[⟨"tx.a", .actor unknown⟩, ⟨"tx.b", .actor unknown⟩, ⟨"rx.c", .actor unknown⟩, ⟨"r", .register 8⟩],
    [⟨⟨"o", 8, 1⟩, 0, 3⟩, ⟨⟨"o", 8, 1⟩, 1, 3⟩, ⟨⟨"i", 8, 1⟩, 3, 2⟩]⟩

/-- The second sender no longer feeds the receiver. -/
theorem shared_cut (t : Merging) : ¬ PreservesFeeding sharedGraph t.transform := by
  have hload : loadSNG sharedDoc = some sharedGraph := by decide +kernel
  obtain ⟨n, hok, hgraph⟩ := loadSNG_net (by decide +kernel) hload
  intro h
  rw [hgraph] at h
  have hmerge := mergeable_of_preserves hok.bipartite hok.names_inj h
  rw [← hgraph] at hmerge
  have hfeeds : sharedGraph.Feeds 1 2 :=
    ⟨3, ⟨⟨"r", .register 8⟩, rfl, rfl⟩, by decide, by decide⟩
  obtain ⟨c, hfirst, e, he, hsrc, htgt⟩ := hmerge.readers 1 2 (by decide) (by decide) hfeeds
  simp only [sharedGraph, List.mem_cons, List.not_mem_nil, or_false] at he
  obtain rfl | rfl | rfl := he
  · cases htgt
  · cases htgt
  · subst hsrc
    exact absurd hfirst (by decide)

theorem shared_not_preserved : sharedDoc.valid = true ∧ loadSNG sharedDoc = some sharedGraph ∧
    ∀ t : Merging, ¬ PreservesFeeding sharedGraph t.transform :=
  ⟨by decide +kernel, by decide +kernel, shared_cut⟩

end SysteMoC.SNG
