import SysteMoC.SngSave
import Mathlib.Algebra.Order.BigOperators.Group.List
import Mathlib.Algebra.Order.Group.Nat
import Mathlib.Logic.Equiv.Defs

/-!
# Saving and loading again

A loaded graph comes back from the document saved for it just when no actor is without
edges or has two edges with one port name, no register is both written and read, and
no actor and no port has an empty name.
-/

namespace SysteMoC.SNG

/-! ## Loading what was saved -/

theorem loadPort_element (ports : List (String × Direction)) (p : String × Direction) :
    loadPort ports (portElement p) = insertNew ports p.1 p.2 := by
  obtain ⟨name, d⟩ := p
  cases d with
  | input => simp [loadPort, portElement, Direction.name, getAttribute]
  | output => simp [loadPort, portElement, Direction.name, getAttribute]

theorem loadPorts_iff (l acc : List (String × Direction)) :
    ((acc.map Prod.fst).Nodup → (l.map portElement).foldlM loadPort acc =
      if ((acc ++ l).map Prod.fst).Nodup then some (acc ++ l) else none) := by
  intro hacc
  induction l generalizing acc with
  | nil => simp [hacc]
  | cons p l ih =>
    rw [List.map_cons, List.foldlM_cons, loadPort_element]
    unfold insertNew
    by_cases hmem : p.1 ∈ acc.map Prod.fst
    · rw [if_pos hmem, if_neg]
      · rfl
      · intro hn
        rw [List.map_append, List.nodup_append] at hn
        exact hn.2.2 p.1 hmem p.1 (by simp) rfl
    · rw [if_neg hmem]
      have := ih (acc ++ [p]) (Assoc.nodup_concat hacc hmem)
      rw [List.append_assoc, List.singleton_append] at this
      exact this

theorem foldlM_none {σ α : Type} {f : σ → α → Option σ} {l : List α} {a : α} (ha : a ∈ l) (hf : ∀ s, f s a = none)
    (s : σ) : l.foldlM f s = none := by
  induction l generalizing s with
  | nil => cases ha
  | cons b l ih =>
    rw [List.foldlM_cons]
    simp only [List.mem_cons] at ha
    obtain rfl | ha := ha
    · rw [hf]
      rfl
    · cases hb : f s b with
      | none => rfl
      | some s' => exact ih ha s'

theorem portElement_injective : Function.Injective portElement := by
  intro ⟨name, d⟩ ⟨name', d'⟩ h
  simp only [portElement, PortElement.mk.injEq, Option.some.injEq] at h
  obtain ⟨rfl, hd⟩ := h
  cases d <;> cases d' <;> simp_all [Direction.name]

theorem loadActorTypes {g : Graph} {l : List ActorTypeElement} {names : List String}
    {m : List (String × List (String × Direction))}
    (hl : ∀ e ∈ l, ∃ t v, e = ⟨some t, (g.ports v).map portElement⟩ ∧ ((g.ports v).map Prod.fst).Nodup)
    (hnames : l.map (·.name) = names.map some) (hn : (m.map Prod.fst ++ names).Nodup) :
    ∃ m', l.foldlM loadActorType m = some m' ∧
      (∀ t ps, m.lookup t = some ps → m'.lookup t = some ps) ∧
      ∀ t v, ⟨some t, (g.ports v).map portElement⟩ ∈ l → m'.lookup t = some (g.ports v) := by
  induction l generalizing names m with
  | nil => exact ⟨m, rfl, fun _ _ h => h, by simp⟩
  | cons e l ih =>
    obtain ⟨t, v, rfl, hports⟩ := hl e List.mem_cons_self
    cases names with
    | nil => cases hnames
    | cons t' names =>
      simp only [List.map_cons, List.cons.injEq, Option.some.injEq] at hnames
      obtain ⟨rfl, hnames⟩ := hnames
      have hfresh : t ∉ m.map Prod.fst := by
        intro hmem
        rw [List.nodup_append] at hn
        exact hn.2.2 t hmem t List.mem_cons_self rfl
      have hstep : loadActorType m ⟨some t, (g.ports v).map portElement⟩ =
          some (m ++ [(t, g.ports v)]) := by
        unfold loadActorType
        rw [loadPorts_iff (g.ports v) [] List.nodup_nil]
        simp [hports, insertNew, getAttribute, hfresh]
      obtain ⟨m', hrun, hkeep, hmem⟩ := ih (m := m ++ [(t, g.ports v)])
        (fun e he => hl e (List.mem_cons_of_mem _ he)) hnames (by simpa using hn)
      refine ⟨m', by rw [List.foldlM_cons, hstep]; exact hrun, ?_, ?_⟩
      · intro t' ps hps
        exact hkeep t' ps (Assoc.lookup_concat_of_some hps)
      · intro t' w hw
        simp only [List.mem_cons] at hw
        obtain hw | hw := hw
        · simp only [ActorTypeElement.mk.injEq, Option.some.injEq] at hw
          obtain ⟨rfl, hports⟩ := hw
          rw [List.map_injective_iff.mpr portElement_injective hports]
          exact hkeep _ _ (Assoc.lookup_concat_self hfresh)
        · exact hmem t' w hw

theorem loadActors {g : Graph} {types : List (String × List (String × Direction))} {k m d : Nat}
    {l : List ActorInstanceElement} (hinj : ∀ v < k, ∀ w < k, nameOf g v = nameOf g w → v = w) (hk : d + m = k)
    (hl : List.Forall₂ (fun v e => ∃ t, e = ⟨some (nameOf g v), some t⟩ ∧ types.lookup t = some (g.ports v))
      (List.range' d m) l) :
    l.foldlM (loadActorInstance types) ⟨⟨(List.range d).map fun v => Net.actorInfo (nameOf g v), []⟩,
        (List.range d).map fun v => (nameOf g v, ⟨g.ports v, v⟩)⟩ =
      some ⟨⟨(List.range k).map fun v => Net.actorInfo (nameOf g v), []⟩,
        (List.range k).map fun v => (nameOf g v, ⟨g.ports v, v⟩)⟩ := by
  induction m generalizing d l with
  | zero =>
    cases hl
    subst hk
    rfl
  | succ m ih =>
    rw [List.range'_succ] at hl
    cases hl with
    | @cons _ e _ l he hl =>
      obtain ⟨t, rfl, ht⟩ := he
      have hfresh : nameOf g d ∉ ((List.range d).map fun v => ((nameOf g v, ⟨g.ports v, v⟩) :
          String × ActorInstance)).map Prod.fst := by
        simp only [List.map_map, List.mem_map, List.mem_range, Function.comp_apply, not_exists, not_and]
        intro v hv heq
        have := hinj v (by omega) d (by omega) heq
        omega
      have hstep : loadActorInstance types ⟨⟨(List.range d).map fun v => Net.actorInfo (nameOf g v), []⟩,
          (List.range d).map fun v => (nameOf g v, ⟨g.ports v, v⟩)⟩ ⟨some (nameOf g d), some t⟩ =
            some ⟨⟨(List.range (d + 1)).map fun v => Net.actorInfo (nameOf g v), []⟩,
              (List.range (d + 1)).map fun v => (nameOf g v, ⟨g.ports v, v⟩)⟩ := by
        unfold loadActorInstance
        simp only [getAttribute, Option.getD_some, ht, Option.bind_eq_bind, Option.bind_some]
        unfold insertNew
        rw [if_neg hfresh]
        simp [List.range_succ, Graph.addVertex, Net.actorInfo]
      rw [List.foldlM_cons, hstep]
      exact ih (by omega) hl

section
variable {g : Graph} {instances : List (String × ActorInstance)} {d : Direction} {tokenSize : Int}

theorem loadEnds_refs {ends : Nat → Nat × Nat} {l : List (Nat × String)}
    (hl : ∀ s ∈ l, connectPort instances d ⟨some (nameOf g s.1), some s.2⟩ = some s.1) (g₀ : Graph) :
    (endRefs g l).foldlM (loadEnd instances d ends tokenSize) g₀ =
      some ⟨g₀.vertices, g₀.edges ++ l.map fun s => ⟨⟨s.2, ofInt tokenSize, 1⟩, (ends s.1).1, (ends s.1).2⟩⟩ := by
  induction l generalizing g₀ with
  | nil => simp [endRefs]
  | cons s l ih =>
    have hstep : loadEnd instances d ends tokenSize g₀ ⟨some (nameOf g s.1), some s.2⟩ =
        some (g₀.addEdge (ends s.1).1 (ends s.1).2 ⟨s.2, ofInt tokenSize, 1⟩) := by
      unfold loadEnd
      rw [hl s List.mem_cons_self]
      rfl
    have hrest := ih (fun s hs => hl s (List.mem_cons_of_mem _ hs))
      (g₀.addEdge (ends s.1).1 (ends s.1).2 ⟨s.2, ofInt tokenSize, 1⟩)
    unfold endRefs at hrest ⊢
    rw [List.map_cons, List.foldlM_cons, hstep]
    simp only [Option.bind_eq_bind, Option.bind_some, hrest]
    simp

theorem loadChannel_element {ch : Chan} {k : Nat} (hok : ch.Ok k) (htype : ch.IsFifo ∨ ch.IsRegister)
    (hsources : ∀ s ∈ ch.sources, connectPort instances .output ⟨some (nameOf g s.1), some s.2⟩ = some s.1)
    (htargets : ∀ t ∈ ch.targets, connectPort instances .input ⟨some (nameOf g t.1), some t.2⟩ = some t.1)
    (g₀ : Graph) :
    loadChannel instances g₀ (ch.element g) = some ⟨g₀.vertices ++ [ch.info],
      g₀.edges ++ (ch.sourceEdges g₀.vertices.length ++ ch.targetEdges g₀.vertices.length)⟩ := by
  obtain ⟨hsize, hlt⟩ := hok.size
  have htok : ∀ ts, ts < 2 ^ 64 → [tokenSizeAttr ts].foldlM loadTokenSize (-1) = some (toInt ts) := by
    intro ts hts
    simp only [List.foldlM_cons, List.foldlM_nil, loadTokenSize, tokenSizeAttr, getAttribute, Option.getD_some,
      if_true, stoul_toString hts, Option.map_some]
    rfl
  unfold loadChannel
  obtain ⟨⟨name, type⟩, tokenSize, sources, targets⟩ := ch
  obtain hfifo | hreg := htype
  · obtain ⟨capacity, delay, htype, _, hcap, hdelay⟩ := hfifo.type
    simp only at htype hsize hlt hsources htargets
    subst htype
    simp only [Chan.element, htok _ hlt, loadVertexType, Option.getD_some, stoul_toString hcap,
      stoul_toString hdelay, Option.bind_eq_bind, Option.bind_some, getAttribute, loadSource, loadTarget, hsize,
      loadEnds_refs hsources, loadEnds_refs htargets]
    simp [Chan.sourceEdges, Chan.targetEdges]
  · unfold Chan.IsRegister at hreg
    simp only at hreg hsize hlt hsources htargets
    subst hreg
    simp only [Chan.element, htok _ hlt, loadVertexType, Option.getD_some,
      Option.bind_eq_bind, Option.bind_some, getAttribute, loadSource, loadTarget, hsize,
      loadEnds_refs hsources, loadEnds_refs htargets]
    simp [Chan.sourceEdges, Chan.targetEdges]

end

/-! ## The round trip -/

def Edge.rename (r : Nat → Nat) (e : Edge) : Edge := { e with source := r e.source, target := r e.target }

/-- The same vertices and edges up to the numbers of the vertices. -/
def Graph.Iso (g g' : Graph) : Prop :=
  ∃ r : Equiv.Perm Nat, (∀ v, g'.vertices[r v]? = g.vertices[v]?) ∧
    (g.edges.map (Edge.rename r)).Perm g'.edges

theorem Graph.Iso.refl (g : Graph) : g.Iso g := by
  refine ⟨Equiv.refl Nat, fun _ => rfl, ?_⟩
  have hid : Edge.rename (Equiv.refl Nat) = id := by
    funext e
    rfl
  rw [hid, List.map_id]

def RoundTrips (pool : List String → String → String) (g : Graph) : Prop :=
  ∃ doc g', saveSNG pool g = some doc ∧ doc.valid = true ∧ loadSNG doc = some g' ∧ g.Iso g'

structure Graph.Savable (g : Graph) : Prop where
  connected : ∀ v, g.IsActor v → g.inEdges v ++ g.outEdges v ≠ []
  ports : ∀ v, g.IsActor v → ((g.inEdges v ++ g.outEdges v).map (·.name)).Nodup
  registers : ∀ v name tokenSize, g.vertices[v]? = some ⟨name, .register tokenSize⟩ →
    g.inEdges v = [] ∨ g.outEdges v = []
  actorNames : ∀ v, g.IsActor v → nameOf g v ≠ ""
  portNames : ∀ e ∈ g.edges, e.name ≠ ""

theorem ports_names (g : Graph) (v : Nat) : (g.ports v).map Prod.fst = (g.inEdges v ++ g.outEdges v).map (·.name) := by
  simp [Graph.ports, Function.comp_def]

namespace Net

variable {n : Net} {pool : List String → String → String}

theorem save_eq (h : n.Ok) (hpool : PoolOk pool) (hone : ∀ ch ∈ n.registers, ch.OneSided) :
    ∃ ctx, ActorsSaved n.graph (List.range n.actors.length) ctx ∧ saveSNG pool n.graph =
      some ⟨ctx.actorTypes, ctx.actorInstances, n.chans.map (Chan.element n.graph)⟩ := by
  obtain ⟨ctx, hrun, hsaved⟩ := save_actors h hpool (Nat.le_refl _)
  refine ⟨ctx, hsaved, ?_⟩
  unfold saveSNG
  rw [range_vertices, List.foldlM_append, hrun]
  simp only [Option.bind_eq_bind, Option.bind_some, save_chans h hone ctx (Nat.le_refl _), List.take_length,
    hsaved.channels, List.nil_append]
  rfl

theorem oneSided_of_save (h : n.Ok) {doc : NetworkGraph} (hsave : saveSNG pool n.graph = some doc) :
    ∀ ch ∈ n.registers, ch.OneSided := by
  intro ch hch
  by_contra hone
  have hmem : ch ∈ n.chans := List.mem_append_right _ hch
  obtain ⟨i, hi⟩ := List.mem_iff_getElem?.mp hmem
  have hlt := (List.getElem?_eq_some_iff.mp hi).1
  have hnone := foldlM_none (f := saveVertex pool n.graph) (a := n.actors.length + i)
    (l := List.range n.graph.vertices.length) (by rw [length_vertices, List.mem_range]; omega)
    (fun ctx => (saveVertex_register h hi (h.registers ch hch) ctx).2 hone) ⟨[], [], [], [], []⟩
  unfold saveSNG at hsave
  rw [hnone] at hsave
  cases hsave

/-- Each actor has its instance, and the type there has the ports of its edges. -/
theorem saved_actor (h : n.Ok) {ctx : SNGDumpCTX} (hsaved : ActorsSaved n.graph (List.range n.actors.length) ctx)
    {v : Nat} (hv : v < n.actors.length) :
    ∃ t, ⟨some (nameOf n.graph v), some t⟩ ∈ ctx.actorInstances ∧
      ⟨some t, (n.graph.ports v).map portElement⟩ ∈ ctx.actorTypes := by
  obtain ⟨e, he, t, rfl, ht⟩ := (Pointwise.forall₂_mem hsaved.instances).1 v (List.mem_range.mpr hv)
  obtain ⟨w, _, hkey, hmem⟩ := hsaved.cache _ _ ht
  refine ⟨t, he, ?_⟩
  rw [ports_of_key h hkey]
  exact hmem

theorem port_of_edge (h : n.Ok) {e : Edge} (he : e ∈ n.graph.edges) :
    ∃ v d, v < n.actors.length ∧ (e.name, d) ∈ n.graph.ports v := by
  obtain ⟨i, ch, hi, ⟨_, hlt⟩ | ⟨_, hlt⟩⟩ := h.mem_edges he
  · refine ⟨e.source, .output, hlt, List.mem_append_right _ ?_⟩
    exact List.mem_map.mpr ⟨e, Graph.mem_outEdges.mpr ⟨he, rfl⟩, rfl⟩
  · refine ⟨e.target, .input, hlt, List.mem_append_left _ ?_⟩
    exact List.mem_map.mpr ⟨e, Graph.mem_inEdges.mpr ⟨he, rfl⟩, rfl⟩

theorem savable_of_roundTrips (h : n.Ok) (hpool : PoolOk pool) (hround : RoundTrips pool n.graph) :
    n.graph.Savable := by
  obtain ⟨doc, g', hsave, hvalid, hload, _⟩ := hround
  have hone := oneSided_of_save h hsave
  obtain ⟨ctx, hsaved, hdoc⟩ := save_eq h hpool hone
  cases hsave.symm.trans hdoc
  unfold NetworkGraph.valid at hvalid
  simp only [Bool.and_eq_true, List.all_eq_true, decide_eq_true_eq] at hvalid
  obtain ⟨⟨⟨⟨_, htypes⟩, _⟩, hinsts⟩, _⟩ := hvalid
  have hports : ∀ v, v < n.actors.length → n.graph.ports v ≠ [] ∧
      (∀ p ∈ n.graph.ports v, p.1 ≠ "") ∧ ((n.graph.ports v).map Prod.fst).Nodup := by
    intro v hv
    obtain ⟨t, _, hmem⟩ := saved_actor h hsaved hv
    have htype := htypes _ hmem
    unfold NetworkGraph.validActorType at htype
    simp only [Bool.and_eq_true, decide_eq_true_eq, List.all_eq_true] at htype
    refine ⟨by simpa using htype.1.2, ?_, ?_⟩
    · intro p hp heq
      have hport := htype.2 _ (List.mem_map_of_mem hp)
      unfold NetworkGraph.validPort portElement at hport
      simp only [Bool.and_eq_true, Option.all_some] at hport
      rw [heq] at hport
      exact absurd hport.1 (by decide)
    · by_contra hdup
      -- a port declared twice stops the loader
      have hnone := foldlM_none (f := loadActorType) hmem (fun types => by
        unfold loadActorType
        rw [loadPorts_iff (n.graph.ports v) [] List.nodup_nil, List.nil_append, if_neg hdup]
        rfl) []
      unfold loadSNG at hload
      rw [hnone] at hload
      cases hload
  refine ⟨?_, ?_, ?_, ?_, ?_⟩
  · intro v hv hnil
    refine (hports v ((isActor_iff h).mp hv)).1 ?_
    have := ports_names n.graph v
    rw [hnil, List.map_nil, List.map_eq_nil_iff] at this
    exact this
  · intro v hv
    rw [← ports_names]
    exact (hports v ((isActor_iff h).mp hv)).2.2
  · intro v name tokenSize hreg
    have hlt := (List.getElem?_eq_some_iff.mp hreg).1
    have hact : ¬ v < n.actors.length := by
      intro hv
      rw [vertices_actor hv] at hreg
      cases hreg
    rw [length_vertices] at hlt
    obtain ⟨i, rfl⟩ : ∃ i, v = n.actors.length + i := ⟨v - n.actors.length, by omega⟩
    obtain ⟨ch, hi⟩ : ∃ ch, n.chans[i]? = some ch := ⟨_, List.getElem?_eq_getElem (by omega)⟩
    have hmem := List.mem_of_getElem? hi
    rw [vertices_chan hi] at hreg
    rw [inEdges_chan h hi, outEdges_chan h hi]
    have hside : ch.OneSided := by
      unfold chans at hmem
      rw [List.mem_append] at hmem
      obtain hmem | hmem := hmem
      · obtain ⟨_, _, htype, _⟩ := (h.fifos _ hmem).type
        rw [Option.some.inj hreg] at htype
        cases htype
      · exact hone _ hmem
    simpa [Chan.sourceEdges, Chan.targetEdges, Chan.OneSided] using hside
  · intro v hv heq
    obtain ⟨t, hmem, _⟩ := saved_actor h hsaved ((isActor_iff h).mp hv)
    have hinst := hinsts _ hmem
    unfold NetworkGraph.validActorInstance at hinst
    rw [heq] at hinst
    simp only [Bool.and_eq_true, Option.all_some] at hinst
    exact absurd hinst.1 (by decide)
  · intro e he
    obtain ⟨v, d, hv, hmem⟩ := port_of_edge h he
    exact (hports v hv).2.1 _ hmem

theorem identifier_of {a : String} (hok : NameOk a) (hne : a ≠ "") : identifier a = true := hok.resolve_left hne

/-- What the savable graphs have, put in terms of their parts. -/
theorem Savable.ports (h : n.Ok) (hsav : n.graph.Savable) {v : Nat} (hv : v < n.actors.length) :
    n.graph.ports v ≠ [] ∧ ((n.graph.ports v).map Prod.fst).Nodup ∧
      ∀ p ∈ n.graph.ports v, identifier p.1 = true := by
  have hact := (isActor_iff h).mpr hv
  refine ⟨?_, ?_, ?_⟩
  · intro hnil
    have hnames := ports_names n.graph v
    rw [hnil, List.map_nil] at hnames
    exact hsav.connected v hact (List.map_eq_nil_iff.mp hnames.symm)
  · rw [ports_names]
    exact hsav.ports v hact
  · intro p hp
    refine identifier_of (h.ports_ok v p hp) ?_
    unfold Graph.ports at hp
    simp only [List.mem_append, List.mem_map, Graph.mem_inEdges, Graph.mem_outEdges] at hp
    obtain ⟨e, ⟨he, _⟩, rfl⟩ | ⟨e, ⟨he, _⟩, rfl⟩ := hp
    · exact hsav.portNames e he
    · exact hsav.portNames e he

theorem Savable.oneSided (h : n.Ok) (hsav : n.graph.Savable) : ∀ ch ∈ n.registers, ch.OneSided := by
  intro ch hch
  obtain ⟨i, hi⟩ := List.mem_iff_getElem?.mp (show ch ∈ n.chans from List.mem_append_right _ hch)
  have hinfo := vertices_chan hi
  have hreg := h.registers ch hch
  have hside := hsav.registers (n.actors.length + i) ch.info.name ch.tokenSize (by rw [hinfo, ← hreg])
  rw [inEdges_chan h hi, outEdges_chan h hi] at hside
  simpa [Chan.sourceEdges, Chan.targetEdges, Chan.OneSided] using hside

theorem Savable.names (h : n.Ok) (hsav : n.graph.Savable) {v : Nat} (hv : v < n.actors.length) :
    identifier (nameOf n.graph v) = true := by
  refine identifier_of ?_ (hsav.actorNames v ((isActor_iff h).mpr hv))
  rw [nameOf_actor hv]
  exact h.names _ (List.getElem_mem _)

theorem valid_ends (h : n.Ok) (hsav : n.graph.Savable) {ends : List (Nat × String)}
    (hends : ∀ s ∈ ends, s.1 < n.actors.length ∧ identifier s.2 = true) :
    (endRefs n.graph ends).all NetworkGraph.validRef = true := by
  unfold endRefs
  simp only [List.all_map, List.all_eq_true, Function.comp_apply, NetworkGraph.validRef, Bool.and_eq_true,
    Option.all_some]
  intro s hs
  exact ⟨Savable.names h hsav (hends s hs).1, (hends s hs).2⟩

theorem Savable.ends (h : n.Ok) (hsav : n.graph.Savable) {i : Nat} {ch : Chan} (hi : n.chans[i]? = some ch) :
    ∀ s ∈ ch.sources ++ ch.targets, s.1 < n.actors.length ∧ identifier s.2 = true := by
  intro s hs
  obtain ⟨hlt, hok⟩ := (h.chans ch (List.mem_of_getElem? hi)).ends s hs
  refine ⟨hlt, identifier_of hok ?_⟩
  obtain hs | hs := List.mem_append.mp hs
  · exact hsav.portNames _ (mem_edgesFrom.mpr ⟨i, ch, hi, .inl (List.mem_map_of_mem hs)⟩)
  · exact hsav.portNames _ (mem_edgesFrom.mpr ⟨i, ch, hi, .inr (List.mem_map_of_mem hs)⟩)

theorem Savable.valid (h : n.Ok) (hsav : n.graph.Savable) {ctx : SNGDumpCTX}
    (hsaved : ActorsSaved n.graph (List.range n.actors.length) ctx) :
    NetworkGraph.valid ⟨ctx.actorTypes, ctx.actorInstances, n.chans.map (Chan.element n.graph)⟩ = true := by
  have hpos : 0 < n.actors.length := List.length_pos_iff.mpr h.nonempty
  obtain ⟨t, hinst, htype⟩ := saved_actor h hsaved hpos
  unfold NetworkGraph.valid
  simp only [Bool.and_eq_true, List.all_eq_true, decide_eq_true_eq]
  refine ⟨⟨⟨⟨List.ne_nil_of_mem htype, ?_⟩, List.ne_nil_of_mem hinst⟩, ?_⟩, ?_⟩
  · intro e he
    obtain ⟨t, v, hv, rfl, ht⟩ := hsaved.types e he
    obtain ⟨hne, _, hnames⟩ := Savable.ports h hsav (List.mem_range.mp hv)
    unfold NetworkGraph.validActorType
    simp only [Option.all_some, ht, Bool.true_and, Bool.and_eq_true, decide_eq_true_eq, List.all_eq_true]
    refine ⟨by simpa using hne, ?_⟩
    intro p hp
    obtain ⟨⟨name, d⟩, hmem, rfl⟩ := List.mem_map.mp hp
    unfold NetworkGraph.validPort portElement
    simp only [Option.all_some, hnames _ hmem, Bool.true_and]
    cases d <;> decide
  · intro e he
    obtain ⟨v, hv, t, rfl, ht⟩ := (Pointwise.forall₂_mem hsaved.instances).2 e he
    obtain ⟨w, _, _, hmem⟩ := hsaved.cache _ _ ht
    obtain ⟨t', _, _, heq, hform⟩ := hsaved.types _ hmem
    simp only [ActorTypeElement.mk.injEq, Option.some.injEq] at heq
    unfold NetworkGraph.validActorInstance
    simp only [Option.all_some, Savable.names h hsav (List.mem_range.mp hv), Bool.true_and]
    rw [heq.1]
    exact hform
  · intro c hc
    obtain ⟨ch, hch, rfl⟩ := List.mem_map.mp hc
    obtain ⟨i, hi⟩ := List.mem_iff_getElem?.mp hch
    have hends := Savable.ends h hsav hi
    have hsources := valid_ends h hsav fun s hs => hends s (List.mem_append_left _ hs)
    have htargets := valid_ends h hsav fun s hs => hends s (List.mem_append_right _ hs)
    unfold chans at hch
    rw [List.mem_append] at hch
    obtain hch | hch := hch
    · obtain ⟨capacity, delay, htype, hcap, _⟩ := (h.fifos ch hch).type
      have hsrc := (h.fifos ch hch).source
      have htgt := (h.fifos ch hch).target
      obtain ⟨⟨name, type⟩, tokenSize, sources, targets⟩ := ch
      simp only at htype hsrc htgt hsources htargets
      subst htype
      have hlen : ∀ l, (endRefs n.graph l).length = l.length := fun l => List.length_map _
      simp only [NetworkGraph.validChannel, Chan.element, hsources, htargets, hlen, hsrc, htgt, Option.all_some,
        positiveInteger_toString hcap, nonNegativeInteger_toString]
      rfl
    · have htype := h.registers ch hch
      obtain ⟨⟨name, type⟩, tokenSize, sources, targets⟩ := ch
      unfold Chan.IsRegister at htype
      simp only at htype hsources htargets
      subst htype
      simp [NetworkGraph.validChannel, Chan.element, hsources, htargets]

theorem connectPort_eq (h : n.Ok) (hsav : n.graph.Savable) {v : Nat} {name : String} {d : Direction}
    (hv : v < n.actors.length) (hp : (name, d) ∈ n.graph.ports v) :
    connectPort ((List.range n.actors.length).map fun v => (nameOf n.graph v, ⟨n.graph.ports v, v⟩)) d
      ⟨some (nameOf n.graph v), some name⟩ = some v := by
  have hnames : (((List.range n.actors.length).map fun v => ((nameOf n.graph v, ⟨n.graph.ports v, v⟩) :
      String × ActorInstance)).map Prod.fst).Nodup := by
    have heq : (((List.range n.actors.length).map fun v => ((nameOf n.graph v, ⟨n.graph.ports v, v⟩) :
        String × ActorInstance)).map Prod.fst) = n.actors := by
      refine List.ext_getElem (by simp) ?_
      intro i hi hi'
      simp [nameOf_actor hi']
    rw [heq]
    exact h.nodup
  have hinst := Assoc.lookup_of_mem hnames (List.mem_map.mpr ⟨v, List.mem_range.mpr hv, rfl⟩)
  have hport := Assoc.lookup_of_mem (Savable.ports h hsav hv).2.1 hp
  unfold connectPort
  simp only [getAttribute, Option.getD_some, hinst, Option.bind_eq_bind, Option.bind_some, hport, if_true]

theorem loadChannels_elements (h : n.Ok) (hsav : n.graph.Savable) {l m : List Chan} (hl : ∀ ch ∈ l, ch ∈ n.chans) :
    (l.map (Chan.element n.graph)).foldlM
      (loadChannel ((List.range n.actors.length).map fun v => (nameOf n.graph v, ⟨n.graph.ports v, v⟩)))
        ⟨n.actors.map actorInfo ++ m.map (·.info), edgesFrom n.actors.length m⟩ =
      some ⟨n.actors.map actorInfo ++ (m ++ l).map (·.info), edgesFrom n.actors.length (m ++ l)⟩ := by
  induction l generalizing m with
  | nil => simp
  | cons ch l ih =>
    have hch := hl ch List.mem_cons_self
    obtain ⟨i, hi⟩ := List.mem_iff_getElem?.mp hch
    have hends := (h.chans ch hch).ends
    have htype : ch.IsFifo ∨ ch.IsRegister := by
      unfold chans at hch
      rw [List.mem_append] at hch
      exact hch.imp (h.fifos ch) (h.registers ch)
    rw [List.map_cons, List.foldlM_cons, loadChannel_element (h.chans ch hch) htype]
    · have hrest := ih (m := m ++ [ch]) fun ch hch => hl ch (List.mem_cons_of_mem _ hch)
      simp only [List.append_assoc, List.singleton_append] at hrest
      rw [← hrest]
      simp [edgesFrom_append, edgesFrom]
    · intro s hs
      have hlt := (hends s (List.mem_append_left _ hs)).1
      refine connectPort_eq h hsav hlt (List.mem_append_right _ ?_)
      refine List.mem_map.mpr ⟨⟨⟨s.2, ch.tokenSize, 1⟩, s.1, n.actors.length + i⟩, ?_, rfl⟩
      exact Graph.mem_outEdges.mpr ⟨mem_edgesFrom.mpr ⟨i, ch, hi, .inl (List.mem_map_of_mem hs)⟩, rfl⟩
    · intro t ht
      have hlt := (hends t (List.mem_append_right _ ht)).1
      refine connectPort_eq h hsav hlt (List.mem_append_left _ ?_)
      refine List.mem_map.mpr ⟨⟨⟨t.2, ch.tokenSize, 1⟩, n.actors.length + i, t.1⟩, ?_, rfl⟩
      exact Graph.mem_inEdges.mpr ⟨mem_edgesFrom.mpr ⟨i, ch, hi, .inr (List.mem_map_of_mem ht)⟩, rfl⟩

theorem element_tag {ch : Chan} : (ch.IsFifo → (ch.element n.graph).tag = .fifo) ∧
    (ch.IsRegister → (ch.element n.graph).tag = .register) := by
  unfold Chan.element
  refine ⟨?_, ?_⟩
  · intro hfifo
    obtain ⟨_, _, htype, _⟩ := hfifo.type
    rw [htype]
  · intro hreg
    rw [show ch.info.type = _ from hreg]

/-- What is saved for a savable graph loads to the graph itself. -/
theorem roundTrips_of_savable (h : n.Ok) (hpool : PoolOk pool) (hsav : n.graph.Savable) :
    RoundTrips pool n.graph := by
  obtain ⟨ctx, hsaved, hdoc⟩ := save_eq h hpool (Savable.oneSided h hsav)
  refine ⟨_, n.graph, hdoc, Savable.valid h hsav hsaved, ?_, .refl _⟩
  have htypes : ∀ e ∈ ctx.actorTypes, ∃ t v, e = ⟨some t, (n.graph.ports v).map portElement⟩ ∧
      ((n.graph.ports v).map Prod.fst).Nodup := by
    intro e he
    obtain ⟨t, v, hv, heq, _⟩ := hsaved.types e he
    exact ⟨t, v, heq, (Savable.ports h hsav (List.mem_range.mp hv)).2.1⟩
  obtain ⟨types, hload, _, hlookup⟩ := loadActorTypes (m := []) htypes hsaved.typeNames
    (by simpa using hsaved.distinct)
  have hinj : ∀ v < n.actors.length, ∀ w < n.actors.length, nameOf n.graph v = nameOf n.graph w → v = w := by
    intro v hv w hw heq
    rw [nameOf_actor hv, nameOf_actor hw] at heq
    exact (List.Nodup.getElem_inj_iff h.nodup).mp heq
  have hinsts := loadActors (d := 0) hinj (Nat.zero_add _) (by
    rw [← List.range_eq_range']
    refine hsaved.instances.imp ?_
    intro v e ⟨t, he, ht⟩
    obtain ⟨w, _, hkey, hmem⟩ := hsaved.cache _ _ ht
    refine ⟨t, he, ?_⟩
    rw [ports_of_key h hkey]
    exact hlookup t w hmem)
  have hactors : (List.range n.actors.length).map (fun v => actorInfo (nameOf n.graph v)) =
      n.actors.map actorInfo := by
    refine List.ext_getElem (by simp) ?_
    intro i hi hi'
    rw [List.getElem_map, List.getElem_map, List.getElem_range, nameOf_actor]
  have hfifos : (n.chans.map (Chan.element n.graph)).filter (·.tag = .fifo) =
      n.fifos.map (Chan.element n.graph) := by
    unfold chans
    rw [List.map_append, List.filter_append, List.filter_eq_self.mpr, List.filter_eq_nil_iff.mpr, List.append_nil]
    · intro c hc
      obtain ⟨ch, hch, rfl⟩ := List.mem_map.mp hc
      simp [element_tag.2 (h.registers ch hch)]
    · intro c hc
      obtain ⟨ch, hch, rfl⟩ := List.mem_map.mp hc
      simp [element_tag.1 (h.fifos ch hch)]
  have hregisters : (n.chans.map (Chan.element n.graph)).filter (·.tag = .register) =
      n.registers.map (Chan.element n.graph) := by
    unfold chans
    rw [List.map_append, List.filter_append, List.filter_eq_nil_iff.mpr, List.filter_eq_self.mpr, List.nil_append]
    · intro c hc
      obtain ⟨ch, hch, rfl⟩ := List.mem_map.mp hc
      simp [element_tag.2 (h.registers ch hch)]
    · intro c hc
      obtain ⟨ch, hch, rfl⟩ := List.mem_map.mp hc
      simp [element_tag.1 (h.fifos ch hch)]
  have hloadFifos := loadChannels_elements (l := n.fifos) (m := []) h hsav
    fun ch hch => List.mem_append_left _ hch
  have hloadRegisters := loadChannels_elements (l := n.registers) (m := n.fifos) h hsav
    fun ch hch => List.mem_append_right _ hch
  rw [hactors] at hinsts
  unfold loadSNG
  simp only [hload, hfifos, hregisters, Option.bind_eq_bind, Option.bind_some]
  refine Option.bind_eq_some_iff.mpr ⟨_, hinsts, ?_⟩
  refine Option.bind_eq_some_iff.mpr ⟨_, ?_, hloadRegisters⟩
  simpa [edgesFrom] using hloadFifos

end Net

/-! ## A pool of names -/

/-- Appends underscores until the name is longer than all it has given out. -/
def uniquePool (used : List String) (s : String) : String :=
  if s ∈ used then s ++ String.ofList (List.replicate ((used.map String.length).sum + 1) '_') else s

theorem typeIdentifierRest_underscores (cs : List Char) (k : Nat) (h : typeIdentifierRest cs = true) :
    typeIdentifierRest (cs ++ List.replicate k '_') = true := by
  have hline : typeIdentifierRest (List.replicate k '_') = true := by
    induction k with
    | zero => rfl
    | succ k ih => exact typeIdentifierRest_cons (by decide) (by decide) ih
  fun_induction typeIdentifierRest cs with
  | case1 => exact hline
  | case2 c cs ih =>
    simp only [Bool.and_eq_true] at h
    simp [typeIdentifierRest, h.1, ih h.2]
  | case3 c cs _ ih =>
    simp only [Bool.and_eq_true] at h
    have hne : c ≠ ':' := by
      intro heq
      rw [heq] at h
      exact absurd h.1 (by decide)
    exact typeIdentifierRest_cons h.1 hne (ih h.2)

theorem uniquePool_ok : PoolOk uniquePool := by
  refine ⟨?_, ?_⟩
  · intro used s hmem
    unfold uniquePool at hmem
    by_cases hs : s ∈ used
    · rw [if_pos hs] at hmem
      have hle := List.le_sum_of_mem (List.mem_map_of_mem (f := String.length) hmem)
      simp at hle
      omega
    · rw [if_neg hs] at hmem
      exact hs hmem
  · intro used s hs
    unfold uniquePool
    by_cases hmem : s ∈ used
    · rw [if_pos hmem]
      unfold typeIdentifier at *
      rw [String.toList_append, String.toList_ofList]
      split at hs
      · simp at hs
      · rename_i c cs heq
        rw [heq]
        simp only [Bool.and_eq_true, List.cons_append] at hs ⊢
        exact ⟨hs.1, typeIdentifierRest_underscores cs _ hs.2⟩
    · rw [if_neg hmem]
      exact hs

/-! ## Which graphs round trip -/

/-- For which graphs a round trip succeeds. -/
theorem roundTrips_iff (pool : List String → String → String) (hpool : PoolOk pool) (doc : NetworkGraph)
    (hvalid : doc.valid = true) (g : Graph) (hload : loadSNG doc = some g) :
    RoundTrips pool g ↔ g.Savable := by
  obtain ⟨n, hok, rfl⟩ := loadSNG_net hvalid hload
  exact ⟨Net.savable_of_roundTrips hok hpool, Net.roundTrips_of_savable hok hpool⟩

def sendType : ActorTypeElement := ⟨some "Send", [⟨some "o", some "out"⟩]⟩

def receiveType : ActorTypeElement := ⟨some "Receive", [⟨some "i", some "in"⟩]⟩

def lineElement (name target : String) : ChannelElement :=
  ⟨.fifo, some name, some "4", none, [tokenSizeAttr 8], [⟨some "tx.a", some "o"⟩], [⟨some target, some "i"⟩]⟩

def lineDoc : NetworkGraph :=
  ⟨[sendType, receiveType], [⟨some "tx.a", some "Send"⟩, ⟨some "rx.b", some "Receive"⟩],
    [lineElement "cf" "rx.b"]⟩

def forkDoc : NetworkGraph :=
  ⟨[sendType, receiveType],
    [⟨some "tx.a", some "Send"⟩, ⟨some "rx.b", some "Receive"⟩, ⟨some "rx.c", some "Receive"⟩],
    [lineElement "cf1" "rx.b", lineElement "cf2" "rx.c"]⟩

theorem roundTrips_iff_line : ∃ g, loadSNG lineDoc = some g ∧ (RoundTrips uniquePool g ↔ g.Savable) := by
  have hsome : (loadSNG lineDoc).isSome := by decide +kernel
  obtain ⟨g, hload⟩ := Option.isSome_iff_exists.mp hsome
  exact ⟨g, hload, roundTrips_iff uniquePool uniquePool_ok lineDoc (by decide +kernel) g hload⟩

/-- The fork is saved with an actor type that has the port twice, and this does not load. -/
theorem fork_lost : forkDoc.valid = true ∧ ∃ g, loadSNG forkDoc = some g ∧ ¬ RoundTrips uniquePool g := by
  have hload : (loadSNG forkDoc).isSome := by decide +kernel
  have hsave : ((loadSNG forkDoc).bind (saveSNG uniquePool)).bind loadSNG = none := by decide +kernel
  obtain ⟨g, hg⟩ := Option.isSome_iff_exists.mp hload
  refine ⟨by decide +kernel, g, hg, ?_⟩
  intro ⟨doc, g', hdoc, _, hg', _⟩
  rw [hg, Option.bind_some, hdoc, Option.bind_some, hg'] at hsave
  cases hsave

end SysteMoC.SNG
