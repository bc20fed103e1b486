import SysteMoC.SngDumperSound

/-!
# Loading a dumped hierarchy

A simulation dumps its hierarchy with `dumpSNG`, the tools load it with `loadSNG`. What they get
is the flat graph of the actors and channels, with an edge for each port bound to a channel.
-/

namespace SysteMoC.Dumper

open SNG (ActorTypeElement ActorInstanceElement ActorPortRef ChannelElement NetworkGraph identifier typeIdentifier)

/-! ## What the tools are to see -/

def Port.leaf (p : Port) : String := (leafName p).getD ""

def Chan.vertex (c : Chan) : Option SNG.VertexInfo :=
  match c.kind with
  | .fifo depthCount usedCount => some ⟨c.name, .fifo c.tokenSize depthCount usedCount⟩
  | .register => some ⟨c.name, .register c.tokenSize⟩
  | .other => none

/-- The ports of the actors that are bound to one of the interfaces. -/
def endsAt (all : List Actor) (is : List Interface) : List (Actor × Port) :=
  all.flatMap fun a => (a.ports.filter fun p => p.interfaces.any (· ∈ is)).map (a, ·)

def Chan.connections (all : List Actor) (c : Chan) : List (String × String × SNG.EdgeInfo) :=
  (endsAt all (c.entries.map .entry)).map (fun x => (x.1.name, c.name, ⟨x.2.leaf, c.tokenSize, 1⟩)) ++
    (endsAt all (c.outlets.map .outlet)).map fun x => (c.name, x.1.name, ⟨x.2.leaf, c.tokenSize, 1⟩)

namespace GraphBase

/-- The graph has the actors and channels of the hierarchy, connected as they are there. -/
structure Depicts (g : GraphBase) (sng : SNG.Graph) : Prop where
  vertices : sng.vertices.Perm (g.actors.map (fun a => SNG.Net.actorInfo a.name) ++ g.allChans.filterMap Chan.vertex)
  closed : sng.Closed
  edges : (sng.edges.map fun e => (SNG.nameOf sng e.source, SNG.nameOf sng e.target, e.toEdgeInfo)).Perm
    (g.allChans.flatMap (Chan.connections g.actors))

/-- Names are as the schema has them, FIFOs have a writer and a reader, and numbers are not too large. -/
structure Legible (g : GraphBase) : Prop where
  nonempty : g.actors ≠ []
  actors : ∀ a ∈ g.actors, identifier a.name = true ∧ typeIdentifier a.className = true ∧ a.ports ≠ []
  ports : ∀ p ∈ leafPorts g.actors, identifier p.leaf = true
  tokenSize : ∀ c ∈ g.allChans, c.tokenSize < 2 ^ 31
  fifos : ∀ c ∈ g.allChans, ∀ depthCount usedCount, c.kind = .fifo depthCount usedCount →
    1 ≤ depthCount ∧ depthCount < 2 ^ 64 ∧ usedCount < 2 ^ 64 ∧
      (endsAt g.actors (c.entries.map .entry)).length = 1 ∧ (endsAt g.actors (c.outlets.map .outlet)).length = 1

end GraphBase

theorem ports_sublist {all : List Actor} {a : Actor} (ha : a ∈ all) : a.ports.Sublist (leafPorts all) := by
  obtain ⟨l, r, rfl⟩ := List.append_of_mem ha
  simp [leafPorts]

theorem Distinct.port_names {all : List Actor} {cs : List Chan} (hd : Distinct all cs) {a : Actor} (ha : a ∈ all) :
    (a.ports.map (·.name)).Nodup := ((ports_sublist ha).map _).nodup hd.ports

/-! ## Types of a document -/

/-- Each type is the type of an actor, under a name that was made from the actor's class. -/
def Typed (pool : List String → String → String) (all : List Actor) (ctx : SNGDumpCTX) : Prop :=
  ∀ e ∈ ctx.actorTypes, ∃ a ∈ all, e.2 = a.typeElement e.1 ∧ ∃ used, e.1 = pool used a.className

section
variable {pool : List String → String → String} {all : List Actor} {s s' : SNGDumpCTX × Expected} {v v' : Visitor}

theorem dumpPort_ports {p : Port} (h : dumpPort v p = some v') : v'.ports = v.ports ++ visited [p] := by
  obtain ⟨port, hport, h⟩ := Option.bind_eq_some_iff.mp h
  obtain ⟨v₁, hadd, h⟩ := Option.bind_eq_some_iff.mp h
  obtain ⟨_, _, h⟩ := Option.bind_eq_some_iff.mp h
  obtain ⟨_, _, h⟩ := Option.bind_eq_some_iff.mp h
  cases h
  unfold Visitor.addPort at hadd
  split at hadd
  · cases hadd
  · cases hadd
    simp [visited, hport]

theorem dumpPorts_ports {ps : List Port} (h : ps.foldlM dumpPort v = some v') : v'.ports = v.ports ++ visited ps := by
  induction ps generalizing v with
  | nil =>
    cases h
    simp [visited]
  | cons p ps ih =>
    rw [List.foldlM_cons] at h
    obtain ⟨v₁, hstep, h⟩ := Option.bind_eq_some_iff.mp h
    rw [ih h, dumpPort_ports hstep, List.append_assoc, visited, visited, visited, ← List.filterMap_append,
      List.singleton_append]

theorem Typed.dumpType {ctx ctx' : SNGDumpCTX} {t : String} {a : Actor} (h : Typed pool all ctx) (ha : a ∈ all)
    (ht : Dumper.dumpType pool ctx a.className (a.names true) (a.names false) = some (ctx', t)) : Typed pool all ctx' := by
  unfold Dumper.dumpType at ht
  simp only at ht
  split at ht
  · obtain ⟨types, hins, heq⟩ := Option.map_eq_some_iff.mp ht
    cases heq
    unfold insertOnce at hins
    split at hins
    · cases hins
    · cases hins
      intro e he
      rw [List.mem_orderedInsert] at he
      obtain rfl | he := he
      · exact ⟨a, ha, rfl, _, rfl⟩
      · exact h e he
  · cases ht
    exact h

theorem Typed.dumpActor {a : Actor} (h : Typed pool all s.1) (hlinked : a.Linked) (hnames : (a.ports.map (·.name)).Nodup)
    (ha : a ∈ all) (hs : Dumper.dumpActor pool s a = some s') : Typed pool all s'.1 := by
  obtain ⟨sv, hsv, hs⟩ := Option.bind_eq_some_iff.mp hs
  obtain ⟨ins, hins, hs⟩ := Option.bind_eq_some_iff.mp hs
  obtain ⟨outs, houts, hs⟩ := Option.bind_eq_some_iff.mp hs
  obtain ⟨⟨ctx, t⟩, htype, hs⟩ := Option.bind_eq_some_iff.mp hs
  obtain ⟨_, _, hs⟩ := Option.bind_eq_some_iff.mp hs
  have hports : sv.ports = visited a.ports := by simpa using dumpPorts_ports hsv
  rw [hports, portNames_eq hlinked hnames, Option.some.injEq] at hins houts
  rw [← hins, ← houts] at htype
  have hctx := h.dumpType ha htype
  split at hs
  · cases hs
    exact hctx
  · cases hs

theorem dumpChan_types {c : Chan} (h : dumpChan s c = some s') : s'.1.actorTypes = s.1.actorTypes := by
  have hconns : ∀ {element : List ActorPortRef → List ActorPortRef → ChannelElement},
      dumpConnections element s c = some s' → s'.1.actorTypes = s.1.actorTypes := by
    intro element h
    obtain ⟨_, _, h⟩ := Option.bind_eq_some_iff.mp h
    obtain ⟨_, _, h⟩ := Option.bind_eq_some_iff.mp h
    obtain ⟨_, _, h⟩ := Option.bind_eq_some_iff.mp h
    cases h
    rfl
  unfold dumpChan at h
  split at h
  · exact hconns h
  · exact hconns h
  · cases h
    rfl

theorem dumpChans_types {cs : List Chan} (h : cs.foldlM dumpChan s = some s') : s'.1.actorTypes = s.1.actorTypes := by
  induction cs generalizing s with
  | nil =>
    cases h
    rfl
  | cons c cs ih =>
    rw [List.foldlM_cons] at h
    obtain ⟨s₁, hstep, h⟩ := Option.bind_eq_some_iff.mp h
    rw [ih h, dumpChan_types hstep]

theorem closeGraph_types {epc : Expected} {cs : List Chan} {ps : List Port} (h : closeGraph s epc cs ps = some s') :
    s'.1.actorTypes = s.1.actorTypes := by
  obtain ⟨s₁, hchans, h⟩ := Option.bind_eq_some_iff.mp h
  obtain ⟨_, _, h⟩ := Option.bind_eq_some_iff.mp h
  have hsame := dumpChans_types hchans
  split at h
  · cases h
    exact hsame
  · cases h

theorem Typed.dumpModules {ms : List Module}
    (ih : ∀ m ∈ ms, ∀ s s', Typed pool all s.1 → dumpModule pool s m = some s' → Typed pool all s'.1)
    (h : Typed pool all s.1) (hs : Dumper.dumpModules pool s ms = some s') : Typed pool all s'.1 := by
  induction ms generalizing s with
  | nil =>
    rw [Dumper.dumpModules] at hs
    cases hs
    exact h
  | cons m ms ihms =>
    rw [Dumper.dumpModules] at hs
    obtain ⟨s₁, hstep, hs⟩ := Option.bind_eq_some_iff.mp hs
    exact ihms (fun m' hm' => ih m' (List.mem_cons_of_mem _ hm')) (ih m List.mem_cons_self _ _ h hstep) hs

theorem Typed.dumpModule {cs : List Chan} (hd : Distinct all cs) {m : Module} (hm : Linked all m)
    (hsub : ∀ a ∈ m.actors, a ∈ all) (h : Typed pool all s.1) (hs : Dumper.dumpModule pool s m = some s') :
    Typed pool all s'.1 := by
  induction hm generalizing s s' with
  | @actor a ha =>
    rw [Dumper.dumpModule] at hs
    have hmem : a ∈ all := hsub a (List.mem_singleton_self a)
    split at hs
    · cases hs
      exact h
    · exact h.dumpActor ha (hd.port_names hmem) hmem hs
  | @graph name ms cs ps hms hg ih =>
    rw [Dumper.dumpModule] at hs
    split at hs
    · cases hs
      exact h
    · obtain ⟨s₁, hinner, hclose⟩ := Option.bind_eq_some_iff.mp hs
      have h₁ : Typed pool all s₁.1 := by
        refine Typed.dumpModules (s := (s.1, .empty)) (fun m hm t t' => ih m hm ?_) h hinner
        intro a ha
        exact hsub a (mem_actorsOf.mpr ⟨m, hm, ha⟩)
      unfold Typed
      rw [closeGraph_types hclose]
      exact h₁

theorem typed_dumpSNG {g : GraphBase} {doc : NetworkGraph} (hok : g.Ok) (h : dumpSNG pool g = some doc) :
    ∀ t ∈ doc.actorTypes, ∃ a ∈ g.actors, ∃ used, t = a.typeElement (pool used a.className) := by
  obtain ⟨sv, hmodules, h⟩ := Option.bind_eq_some_iff.mp h
  obtain ⟨s, hclose, h⟩ := Option.bind_eq_some_iff.mp h
  cases h
  have hinner : Typed pool g.actors sv.1 := by
    refine Typed.dumpModules (fun m hm t t' => Typed.dumpModule hok.distinct (hok.modules m hm) ?_) ?_ hmodules
    · intro a ha
      exact mem_actorsOf.mpr ⟨m, hm, ha⟩
    · intro e he
      cases he
  intro t ht
  obtain ⟨e, he, rfl⟩ := List.mem_map.mp ht
  rw [closeGraph_types hclose] at he
  obtain ⟨a, ha, htype, used, hused⟩ := hinner e he
  exact ⟨a, ha, used, by rw [htype, hused]⟩

end

/-! ## Loading the types and the actors -/

def Port.direction (p : Port) : SNG.Direction := if p.isInput then .input else .output

def Actor.loaded (a : Actor) : List (String × SNG.Direction) :=
  (a.names true).map (·, .input) ++ (a.names false).map (·, .output)

theorem typeElement_eq (a : Actor) (t : String) : a.typeElement t = ⟨some t, a.loaded.map SNG.portElement⟩ := by
  simp only [Actor.typeElement, typeElement, Actor.loaded, List.map_append, List.map_map]
  rfl

section
variable {a : Actor} {p : Port}

theorem Actor.Linked.port (ha : a.Linked) (hp : p ∈ a.ports) :
    leafName p = some p.leaf ∧ p.name = a.name ++ "." ++ p.leaf := by
  obtain ⟨port, -, hactor, hleaf, -, hkey⟩ := flummyPort_child (ha.named p hp)
  have heq : p.leaf = port.portName := by simp [Port.leaf, hleaf]
  exact ⟨by rw [hleaf, heq], by rw [← hkey, FlummyPort.key, hactor, heq]⟩

theorem loaded_names (a : Actor) : (a.loaded.map Prod.fst).Perm (a.ports.filterMap leafName) := by
  have hside : ∀ d : Bool, (a.names d).Perm ((a.ports.filter (·.isInput == d)).filterMap leafName) :=
    fun d => List.perm_insertionSort _ _
  have hsplit : (a.ports.filter (·.isInput == true) ++ a.ports.filter (·.isInput == false)).Perm a.ports := by
    have hnot : (fun p : Port => p.isInput == false) = fun p => !(p.isInput == true) := by
      funext p
      cases p.isInput <;> rfl
    rw [hnot]
    exact List.filter_append_perm _ _
  have hnames : a.loaded.map Prod.fst = a.names true ++ a.names false := by simp [Actor.loaded, Function.comp_def]
  have hleaves := hsplit.filterMap leafName
  rw [List.filterMap_append] at hleaves
  rw [hnames]
  exact ((hside true).append (hside false)).trans hleaves

theorem loaded_nodup (ha : a.Linked) (hn : (a.ports.map (·.name)).Nodup) : (a.loaded.map Prod.fst).Nodup :=
  (loaded_names a).nodup_iff.mpr (leafNames_nodup ha.named hn)

theorem mem_loaded (ha : a.Linked) (hp : p ∈ a.ports) : (p.leaf, p.direction) ∈ a.loaded := by
  have hmem : p.leaf ∈ a.names p.isInput := by
    rw [Actor.names, List.mem_insertionSort]
    exact List.mem_filterMap.mpr ⟨p, List.mem_filter.mpr ⟨hp, by simp⟩, (ha.port hp).1⟩
  cases hd : p.isInput with
  | true =>
    rw [hd] at hmem
    exact List.mem_append_left _ (List.mem_map.mpr ⟨_, hmem, by simp [Port.direction, hd]⟩)
  | false =>
    rw [hd] at hmem
    exact List.mem_append_right _ (List.mem_map.mpr ⟨_, hmem, by simp [Port.direction, hd]⟩)

end

theorem loadTypes {l : List ActorTypeElement} {m : List (String × List (String × SNG.Direction))}
    (hl : ∀ e ∈ l, ∃ (t : String) (ps : List (String × SNG.Direction)),
      e = ⟨some t, ps.map SNG.portElement⟩ ∧ (ps.map Prod.fst).Nodup)
    (hn : (m.map (some ∘ Prod.fst) ++ l.map (·.name)).Nodup) :
    ∃ m', l.foldlM SNG.loadActorType m = some m' ∧ (∀ t ps, m.lookup t = some ps → m'.lookup t = some ps) ∧
      ∀ (t : String) (ps : List (String × SNG.Direction)), ⟨some t, ps.map SNG.portElement⟩ ∈ l →
        m'.lookup t = some ps := by
  induction l generalizing m with
  | nil => exact ⟨m, rfl, fun _ _ h => h, by simp⟩
  | cons e l ih =>
    obtain ⟨t, ps, rfl, hports⟩ := hl e List.mem_cons_self
    have hfresh : t ∉ m.map Prod.fst := by
      intro hmem
      obtain ⟨x, hx, rfl⟩ := List.mem_map.mp hmem
      exact (List.nodup_append.mp hn).2.2 _ (List.mem_map.mpr ⟨x, hx, rfl⟩) _ List.mem_cons_self rfl
    have hstep : SNG.loadActorType m ⟨some t, ps.map SNG.portElement⟩ = some (m ++ [(t, ps)]) := by
      unfold SNG.loadActorType
      rw [SNG.loadPorts_iff ps [] List.nodup_nil]
      simp [hports, SNG.insertNew, SNG.getAttribute, hfresh]
    obtain ⟨m', hrun, hkeep, hmem⟩ := ih (m := m ++ [(t, ps)]) (fun e he => hl e (List.mem_cons_of_mem _ he))
      (by simpa using hn)
    refine ⟨m', by rw [List.foldlM_cons, hstep]; exact hrun, ?_, ?_⟩
    · intro t' ps' hps
      exact hkeep t' ps' (Assoc.lookup_concat_of_some hps)
    · intro t' ps' he
      obtain he | he := List.mem_cons.mp he
      · simp only [ActorTypeElement.mk.injEq, Option.some.injEq] at he
        obtain ⟨rfl, hps⟩ := he
        rw [List.map_injective_iff.mpr SNG.portElement_injective hps]
        exact hkeep _ _ (Assoc.lookup_concat_self hfresh)
      · exact hmem t' ps' he

/-- The actors that are loaded, by name. -/
def Numbered (as : List Actor) (instances : List (String × SNG.ActorInstance)) : Prop :=
  ∀ i a, as[i]? = some a → instances.lookup a.name = some ⟨a.loaded, i⟩

theorem loadInstances {types : List (String × List (String × SNG.Direction))} {typeOf : Actor → String} {as : List Actor}
    (hn : (as.map (·.name)).Nodup) (hl : ∀ a ∈ as, types.lookup (typeOf a) = some a.loaded) :
    ∃ s, (as.map fun a => (⟨some a.name, some (typeOf a)⟩ : ActorInstanceElement)).foldlM
        (SNG.loadActorInstance types) ⟨.empty, []⟩ = some s ∧
      SNG.ActorsLoaded (as.map (·.name)) s ∧ Numbered as s.actorInstances := by
  induction as using List.reverseRecOn with
  | nil => exact ⟨_, rfl, ⟨rfl, rfl, List.nodup_nil, by simp⟩, by simp [Numbered]⟩
  | append_singleton as a ih =>
    rw [List.map_append, List.nodup_append] at hn
    obtain ⟨s, hrun, hs, hnum⟩ := ih hn.1 fun a ha => hl a (List.mem_append_left _ ha)
    have hfresh : a.name ∉ s.actorInstances.map Prod.fst := by
      rw [hs.instances]
      intro hmem
      exact hn.2.2 _ hmem _ (by simp) rfl
    have hlength : s.g.vertices.length = as.length := by simp [hs.graph]
    obtain ⟨s', hstep, hinst⟩ : ∃ s', SNG.loadActorInstance types s ⟨some a.name, some (typeOf a)⟩ = some s' ∧
        s'.actorInstances = s.actorInstances ++ [(a.name, ⟨a.loaded, as.length⟩)] := by
      refine ⟨⟨s.g.addVertex (SNG.Net.actorInfo a.name), _⟩, ?_, rfl⟩
      simp [SNG.loadActorInstance, SNG.getAttribute, hl a (by simp), SNG.insertNew, hfresh, hlength, SNG.Net.actorInfo]
    have hloaded := hs.step hstep
    refine ⟨s', ?_, by rw [List.map_append]; exact hloaded, ?_⟩
    · rw [List.map_append, List.foldlM_append, hrun]
      simp [hstep]
    · intro i a' hi
      rw [hinst]
      obtain hlt | hge := Nat.lt_or_ge i as.length
      · rw [List.getElem?_append_left hlt] at hi
        exact Assoc.lookup_concat_of_some (hnum i a' hi)
      · rw [List.getElem?_append_right hge, List.getElem?_singleton] at hi
        split at hi
        · cases hi
          obtain rfl : i = as.length := by omega
          exact Assoc.lookup_concat_self hfresh
        · cases hi

theorem connectPort_loaded {as : List Actor} {instances : List (String × SNG.ActorInstance)} (h : Numbered as instances)
    {i : Nat} {a : Actor} {p : Port} (hi : as[i]? = some a) (ha : a.Linked) (hn : (a.ports.map (·.name)).Nodup)
    (hp : p ∈ a.ports) : SNG.connectPort instances p.direction (p.ref a) = some i := by
  have hport := Assoc.lookup_of_mem (loaded_nodup ha hn) (mem_loaded ha hp)
  simp [SNG.connectPort, Port.ref, SNG.getAttribute, (ha.port hp).1, h i a hi, hport]

/-! ## Loading the channels -/

section
variable {all : List Actor} {cs : List Chan} {is : List Interface}

theorem mem_endsAt {x : Actor × Port} :
    x ∈ endsAt all is ↔ x.1 ∈ all ∧ x.2 ∈ x.1.ports ∧ ∃ i ∈ is, i ∈ x.2.interfaces := by
  obtain ⟨a, p⟩ := x
  simp only [endsAt, List.mem_flatMap, List.mem_map, List.mem_filter, List.any_eq_true, decide_eq_true_eq]
  constructor
  · intro ⟨b, hb, q, ⟨hq, i, hi, his⟩, heq⟩
    cases heq
    exact ⟨hb, hq, i, his, hi⟩
  · intro ⟨ha, hp, i, his, hi⟩
    exact ⟨a, ha, p, ⟨hp, i, hi, his⟩, rfl⟩

theorem endsAt_ports : ((endsAt all is).map Prod.snd).Sublist (leafPorts all) := by
  unfold endsAt leafPorts
  rw [List.map_flatMap]
  induction all with
  | nil => simp
  | cons a all ih =>
    rw [List.flatMap_cons, List.flatMap_cons]
    refine List.Sublist.append ?_ ih
    simp [Function.comp_def]

variable (hd : Distinct all cs) (hlinked : ∀ a ∈ all, a.Linked)

include hd hlinked in
theorem endsAt_nodup : ((endsAt all is).map fun x => x.2.ref x.1).Nodup := by
  refine List.Nodup.of_map (fun r : ActorPortRef => r.actor.getD "" ++ "." ++ r.port.getD "") ?_
  have hnames : ((endsAt all is).map fun x => x.2.name).Nodup := by
    have hsub : ((endsAt all is).map Prod.snd).Sublist (leafPorts all) := endsAt_ports
    have hnodup := (hsub.map (·.name)).nodup hd.ports
    rwa [List.map_map] at hnodup
  rw [List.map_map]
  refine (List.Perm.of_eq (List.map_congr_left fun x hx => ?_)).nodup_iff.mp hnames
  obtain ⟨ha, hp, _⟩ := mem_endsAt.mp hx
  obtain ⟨hleaf, hname⟩ := (hlinked _ ha).port hp
  simp [Port.ref, hleaf, hname]

include hd hlinked in
theorem Refs.perm {refs : List ActorPortRef} (h : Refs all is refs) :
    refs.Perm ((endsAt all is).map fun x => x.2.ref x.1) := by
  refine (List.perm_ext_iff_of_nodup h.1 (endsAt_nodup hd hlinked)).mpr fun r => ?_
  rw [h.2, List.mem_map]
  constructor
  · intro ⟨a, ha, p, hp, his, heq⟩
    exact ⟨(a, p), mem_endsAt.mpr ⟨ha, hp, his⟩, heq.symm⟩
  · intro ⟨⟨a, p⟩, hx, heq⟩
    obtain ⟨ha, hp, his⟩ := mem_endsAt.mp hx
    exact ⟨a, ha, p, hp, his, heq.symm⟩

end

/-- The graph before its channels are loaded. -/
def actorGraph (as : List Actor) : SNG.Graph := ⟨as.map fun a => SNG.Net.actorInfo a.name, []⟩

theorem nameOf_actorGraph {as : List Actor} {i : Nat} {a : Actor} (h : as[i]? = some a) :
    SNG.nameOf (actorGraph as) i = a.name := by
  simp [SNG.nameOf, actorGraph, h, SNG.Net.actorInfo]

/-- The channel as it is loaded. -/
structure Fits (all : List Actor) (name : Nat → String) (c : Chan) (ch : SNG.Chan) : Prop where
  vertex : c.vertex = some ch.info
  tokenSize : ch.tokenSize = c.tokenSize
  sources : (ch.sources.map fun s => (name s.1, s.2)).Perm
    ((endsAt all (c.entries.map .entry)).map fun x => (x.1.name, x.2.leaf))
  targets : (ch.targets.map fun t => (name t.1, t.2)).Perm
    ((endsAt all (c.outlets.map .outlet)).map fun x => (x.1.name, x.2.leaf))

/-- The ports that the channel refers to are found. -/
structure Loadable (as : List Actor) (instances : List (String × SNG.ActorInstance)) (ch : SNG.Chan) : Prop where
  ok : ch.Ok as.length
  type : ch.IsFifo ∨ ch.IsRegister
  sources : ∀ s ∈ ch.sources, SNG.connectPort instances .output ⟨some (SNG.nameOf (actorGraph as) s.1), some s.2⟩ = some s.1
  targets : ∀ t ∈ ch.targets, SNG.connectPort instances .input ⟨some (SNG.nameOf (actorGraph as) t.1), some t.2⟩ = some t.1

section
variable {as : List Actor} {instances : List (String × SNG.ActorInstance)}

theorem loadChannels_loadable {l m : List SNG.Chan} (hl : ∀ ch ∈ l, Loadable as instances ch) :
    (l.map (SNG.Chan.element (actorGraph as))).foldlM (SNG.loadChannel instances)
        ⟨(actorGraph as).vertices ++ m.map (·.info), SNG.edgesFrom as.length m⟩ =
      some ⟨(actorGraph as).vertices ++ (m ++ l).map (·.info), SNG.edgesFrom as.length (m ++ l)⟩ := by
  induction l generalizing m with
  | nil => simp
  | cons ch l ih =>
    have hch := hl ch List.mem_cons_self
    have hrest := ih (m := m ++ [ch]) fun ch hch => hl ch (List.mem_cons_of_mem _ hch)
    have hlength : ((actorGraph as).vertices ++ m.map (·.info)).length = as.length + m.length := by simp [actorGraph]
    rw [List.map_cons, List.foldlM_cons, SNG.loadChannel_element hch.ok hch.type hch.sources hch.targets]
    simp only [List.append_assoc, List.singleton_append] at hrest
    rw [← hrest]
    simp [SNG.edgesFrom_append, SNG.edgesFrom, hlength]

variable {all : List Actor} {cs : List Chan} (hd : Distinct all cs) (hlinked : ∀ a ∈ all, a.Linked)
  (hnum : Numbered as instances) (hall : ∀ a ∈ all, a ∈ as)

include hd hlinked hnum hall in
theorem exists_ends {is : List Interface} {d : SNG.Direction} {refs : List ActorPortRef} (h : Refs all is refs)
    (hdir : ∀ p ∈ leafPorts all, (∃ i ∈ is, i ∈ p.interfaces) → p.direction = d)
    (hports : ∀ p ∈ leafPorts all, identifier p.leaf = true) :
    ∃ l : List (Nat × String), refs = SNG.endRefs (actorGraph as) l ∧
      (l.map fun s => (SNG.nameOf (actorGraph as) s.1, s.2)).Perm ((endsAt all is).map fun x => (x.1.name, x.2.leaf)) ∧
      (∀ s ∈ l, s.1 < as.length ∧ SNG.NameOk s.2) ∧
      ∀ s ∈ l, SNG.connectPort instances d ⟨some (SNG.nameOf (actorGraph as) s.1), some s.2⟩ = some s.1 := by
  have hend : ∀ r ∈ refs, ∃ s : Nat × String, r = ⟨some (SNG.nameOf (actorGraph as) s.1), some s.2⟩ ∧
      (s.1 < as.length ∧ SNG.NameOk s.2) ∧
        SNG.connectPort instances d ⟨some (SNG.nameOf (actorGraph as) s.1), some s.2⟩ = some s.1 := by
    intro r hr
    obtain ⟨a, ha, p, hp, his, rfl⟩ := (h.2 r).mp hr
    have hleaf : p ∈ leafPorts all := mem_leafPorts.mpr ⟨a, ha, hp⟩
    obtain ⟨i, hi⟩ := List.mem_iff_getElem?.mp (hall a ha)
    have href : p.ref a = ⟨some (SNG.nameOf (actorGraph as) i), some p.leaf⟩ := by
      rw [Port.ref, ((hlinked a ha).port hp).1, nameOf_actorGraph hi]
    refine ⟨(i, p.leaf), href, ⟨(List.getElem?_eq_some_iff.mp hi).1, .inr (hports p hleaf)⟩, ?_⟩
    have hconn := connectPort_loaded hnum hi (hlinked a ha) (hd.port_names ha) hp
    rwa [href, hdir p hleaf his] at hconn
  obtain ⟨l, hl⟩ := Pointwise.exists_forall₂ hend
  obtain rfl : refs = SNG.endRefs (actorGraph as) l := by
    rw [SNG.endRefs, ← List.forall₂_eq_eq_eq, List.forall₂_map_right_iff]
    exact hl.imp fun r s hs => hs.1
  have hok := (Pointwise.forall₂_mem hl).2
  refine ⟨l, rfl, ?_, fun s hs => ?_, fun s hs => ?_⟩
  rotate_left
  · obtain ⟨_, _, _, hs, _⟩ := hok s hs
    exact hs
  · obtain ⟨_, _, _, _, hs⟩ := hok s hs
    exact hs
  have hperm := (h.perm hd hlinked).map fun r => (r.actor.getD "", r.port.getD "")
  rw [SNG.endRefs, List.map_map, List.map_map] at hperm
  refine hperm.trans (List.Perm.of_eq (List.map_congr_left fun x hx => ?_))
  obtain ⟨ha, hp, _⟩ := mem_endsAt.mp hx
  simp [Port.ref, ((hlinked _ ha).port hp).1]

theorem direction_entry {p : Port} {i : Nat} (h : Interface.entry i ∈ p.interfaces) : p.direction = .output := by
  unfold Port.interfaces at h
  split at h
  · simp at h
  · rename_i hbinding
    simp [Port.direction, Port.isInput, hbinding]

theorem direction_outlet {p : Port} {i : Nat} (h : Interface.outlet i ∈ p.interfaces) : p.direction = .input := by
  unfold Port.interfaces at h
  split at h
  · rename_i hbinding
    simp [Port.direction, Port.isInput, hbinding]
  · simp at h

theorem tokenSize_ok {n : Nat} (h : n < 2 ^ 31) : SNG.ofInt (SNG.toInt n) = n ∧ n < 2 ^ 64 := by
  unfold SNG.ofInt SNG.toInt
  rw [Int.bmod_def]
  omega

include hd hlinked hnum hall in
/-- A channel's element is that of a channel that loads. -/
theorem Describes.loadable {c : Chan} {e : ChannelElement} (h : Describes all c e)
    (hports : ∀ p ∈ leafPorts all, identifier p.leaf = true) (hsize : c.tokenSize < 2 ^ 31)
    (hfifo : ∀ depthCount usedCount, c.kind = .fifo depthCount usedCount →
      1 ≤ depthCount ∧ depthCount < 2 ^ 64 ∧ usedCount < 2 ^ 64 ∧
        (endsAt all (c.entries.map .entry)).length = 1 ∧ (endsAt all (c.outlets.map .outlet)).length = 1) :
    ∃ ch : SNG.Chan, e = ch.element (actorGraph as) ∧ Loadable as instances ch ∧
      Fits all (SNG.nameOf (actorGraph as)) c ch := by
  obtain ⟨sources, hsources, hsperm, hsok, hsconn⟩ := exists_ends (d := .output) hd hlinked hnum hall h.sources
    (by
      intro p _ hp
      obtain ⟨i, hi, hip⟩ := hp
      obtain ⟨x, _, rfl⟩ := List.mem_map.mp hi
      exact direction_entry hip) hports
  obtain ⟨targets, htargets, htperm, htok, htconn⟩ := exists_ends (d := .input) hd hlinked hnum hall h.targets
    (by
      intro p _ hp
      obtain ⟨i, hi, hip⟩ := hp
      obtain ⟨x, _, rfl⟩ := List.mem_map.mp hi
      exact direction_outlet hip) hports
  have hends : ∀ s ∈ sources ++ targets, s.1 < as.length ∧ SNG.NameOk s.2 := by
    intro s hs
    exact (List.mem_append.mp hs).elim (hsok s) (htok s)
  have helement := h.element
  rw [hsources, htargets] at helement
  cases hkind : c.kind with
  | fifo depthCount usedCount =>
    obtain ⟨hdepth, hdepth', hused, hsource, htarget⟩ := hfifo _ _ hkind
    let ch : SNG.Chan := ⟨⟨c.name, .fifo c.tokenSize depthCount usedCount⟩, c.tokenSize, sources, targets⟩
    have hslen := hsperm.length_eq
    have htlen := htperm.length_eq
    rw [List.length_map, List.length_map] at hslen htlen
    refine ⟨ch, ?_, ⟨⟨hends, tokenSize_ok hsize⟩, .inl ⟨?_, ?_, depthCount, usedCount, rfl, hdepth, hdepth', hused⟩,
      hsconn, htconn⟩, ⟨by simp [Chan.vertex, hkind, ch], rfl, hsperm, htperm⟩⟩
    · simp only [Chan.element, hkind, Option.some.injEq] at helement
      rw [← helement]
      rfl
    · rw [← hsource, ← hslen]
    · rw [← htarget, ← htlen]
  | register =>
    let ch : SNG.Chan := ⟨⟨c.name, .register c.tokenSize⟩, c.tokenSize, sources, targets⟩
    refine ⟨ch, ?_, ⟨⟨hends, tokenSize_ok hsize⟩, .inr rfl, hsconn, htconn⟩,
      ⟨by simp [Chan.vertex, hkind, ch], rfl, hsperm, htperm⟩⟩
    simp only [Chan.element, hkind, Option.some.injEq] at helement
    rw [← helement]
    rfl
  | other => simp [Chan.element, hkind] at helement

/-- Edges say which actor is connected to which channel. -/
theorem edges_fit {name : Nat → String} {c : Nat} {cs : List Chan} {chs : List SNG.Chan}
    (h : List.Forall₂ (Fits all (SNG.nameOf (actorGraph as))) cs chs) (hok : ∀ ch ∈ chs, ch.Ok as.length)
    (hactors : ∀ v < as.length, name v = SNG.nameOf (actorGraph as) v)
    (hchans : ∀ i ch, chs[i]? = some ch → name (c + i) = ch.info.name) :
    ((SNG.edgesFrom c chs).map fun e => (name e.source, name e.target, e.toEdgeInfo)).Perm
      (cs.flatMap (Chan.connections all)) := by
  induction h generalizing c with
  | nil => exact .nil
  | @cons x ch cs chs hfit h ih =>
    have hends := (hok ch List.mem_cons_self).ends
    have hrest := ih (c := c + 1) (fun ch hch => hok ch (List.mem_cons_of_mem _ hch)) (fun i ch hi => by
      rw [show c + 1 + i = c + (i + 1) by omega]
      exact hchans (i + 1) ch hi)
    have hinfo : ch.info.name = x.name := by
      have hvertex := hfit.vertex
      unfold Chan.vertex at hvertex
      split at hvertex
      · rw [← Option.some.inj hvertex]
      · rw [← Option.some.inj hvertex]
      · cases hvertex
    have hname : name c = x.name := (hchans 0 ch rfl).trans hinfo
    rw [SNG.edgesFrom, List.flatMap_cons, List.map_append, List.map_append]
    refine List.Perm.append (List.Perm.append ?_ ?_) hrest
    · have hsources := hfit.sources.map fun q => (q.1, x.name, (⟨q.2, x.tokenSize, 1⟩ : SNG.EdgeInfo))
      rw [List.map_map, List.map_map] at hsources
      refine List.Perm.trans (List.Perm.of_eq ?_) hsources
      rw [SNG.Chan.sourceEdges, List.map_map]
      refine List.map_congr_left fun s hs => ?_
      simp [hname, hfit.tokenSize, hactors _ (hends s (List.mem_append_left _ hs)).1]
    · have htargets := hfit.targets.map fun q => (x.name, q.1, (⟨q.2, x.tokenSize, 1⟩ : SNG.EdgeInfo))
      rw [List.map_map, List.map_map] at htargets
      refine List.Perm.trans (List.Perm.of_eq ?_) htargets
      rw [SNG.Chan.targetEdges, List.map_map]
      refine List.map_congr_left fun t ht => ?_
      simp [hname, hfit.tokenSize, hactors _ (hends t (List.mem_append_right _ ht)).1]

theorem exists_chans {l : List ChannelElement} {cs : List Chan}
    (h : List.Forall₂ (fun e c => ∃ ch : SNG.Chan, e = ch.element (actorGraph as) ∧ Loadable as instances ch ∧
      Fits all (SNG.nameOf (actorGraph as)) c ch) l cs) :
    ∃ chs : List SNG.Chan, l = chs.map (SNG.Chan.element (actorGraph as)) ∧ (∀ ch ∈ chs, Loadable as instances ch) ∧
      List.Forall₂ (Fits all (SNG.nameOf (actorGraph as))) cs chs := by
  induction h with
  | nil => exact ⟨[], rfl, by simp, .nil⟩
  | cons hch _ ih =>
    obtain ⟨ch, he, hload, hfit⟩ := hch
    obtain ⟨chs, hl, hloads, hfits⟩ := ih
    refine ⟨ch :: chs, by rw [he, hl]; rfl, ?_, .cons hfit hfits⟩
    intro ch' hch'
    obtain rfl | hch' := List.mem_cons.mp hch'
    · exact hload
    · exact hloads ch' hch'

theorem loadSNG_chans {types : List (String × List (String × SNG.Direction))} {s : SNG.Loading} {chs : List SNG.Chan}
    (doc : NetworkGraph) (htypes : doc.actorTypes.foldlM SNG.loadActorType [] = some types)
    (hs : doc.actorInstances.foldlM (SNG.loadActorInstance types) ⟨.empty, []⟩ = some s) (hg : s.g = actorGraph as)
    (hchs : doc.channels = chs.map (SNG.Chan.element (actorGraph as))) (hload : ∀ ch ∈ chs, Loadable as s.actorInstances ch) :
    ∃ chs', chs'.Perm chs ∧
      SNG.loadSNG doc = some ⟨(actorGraph as).vertices ++ chs'.map (·.info), SNG.edgesFrom as.length chs'⟩ := by
  let isFifo : SNG.Chan → Bool := fun ch => decide ((ch.element (actorGraph as)).tag = .fifo)
  have htag : ∀ ch : SNG.Chan, decide ((ch.element (actorGraph as)).tag = .register) = !isFifo ch := by
    intro ch
    cases h : (ch.element (actorGraph as)).tag with
    | fifo => simp [isFifo, h]
    | register => simp [isFifo, h]
  have hfifos : doc.channels.filter (·.tag = .fifo) = (chs.filter isFifo).map (SNG.Chan.element (actorGraph as)) := by
    rw [hchs, List.filter_map]
    rfl
  have hregs : doc.channels.filter (·.tag = .register) =
      (chs.filter fun ch => !isFifo ch).map (SNG.Chan.element (actorGraph as)) := by
    rw [hchs, List.filter_map]
    exact congrArg _ (List.filter_congr fun ch _ => htag ch)
  have hload₁ := loadChannels_loadable (l := chs.filter isFifo) (m := []) fun ch hch => hload ch (List.mem_of_mem_filter hch)
  have hload₂ := loadChannels_loadable (l := chs.filter fun ch => !isFifo ch) (m := chs.filter isFifo)
    fun ch hch => hload ch (List.mem_of_mem_filter hch)
  refine ⟨chs.filter isFifo ++ chs.filter fun ch => !isFifo ch, List.filter_append_perm _ _, ?_⟩
  unfold SNG.loadSNG
  simp only [htypes, hs, hfifos, hregs, Option.bind_eq_bind, Option.bind_some]
  refine Option.bind_eq_some_iff.mpr ⟨_, ?_, hload₂⟩
  rw [hg]
  simpa [SNG.edgesFrom, actorGraph] using hload₁

theorem vertices_fit {cs : List Chan} {chs : List SNG.Chan} (h : List.Forall₂ (Fits all (SNG.nameOf (actorGraph as))) cs chs) :
    cs.filterMap Chan.vertex = chs.map (·.info) := by
  induction h with
  | nil => rfl
  | cons hfit _ ih => rw [List.filterMap_cons_some hfit.vertex, ih, List.map_cons]

/-- The graph depicts the hierarchy, whatever the order of its actors and of its channels. -/
theorem depicts {g : GraphBase} {cs : List Chan} {chs chs' : List SNG.Chan} (has : as.Perm g.actors) (hcs : cs.Perm g.allChans)
    (hfit : List.Forall₂ (Fits g.actors (SNG.nameOf (actorGraph as))) cs chs) (hchs : chs'.Perm chs)
    (hok : ∀ ch ∈ chs', ch.Ok as.length) :
    g.Depicts ⟨(actorGraph as).vertices ++ chs'.map (·.info), SNG.edgesFrom as.length chs'⟩ := by
  obtain ⟨cs', hfit', hcs'⟩ := List.perm_comp_forall₂ hchs hfit.flip
  have hfit' := hfit'.flip
  have hlength : (actorGraph as).vertices.length = as.length := by simp [actorGraph]
  refine ⟨?_, ?_, ?_⟩
  · refine List.Perm.append (has.map _) ?_
    rw [← vertices_fit hfit']
    exact (hcs'.trans hcs).filterMap _
  · intro e he
    obtain ⟨i, ch, hi, he⟩ := SNG.mem_edgesFrom.mp he
    have hlt := (List.getElem?_eq_some_iff.mp hi).1
    have hends := (hok ch (List.mem_of_getElem? hi)).ends
    simp only [List.length_append, List.length_map, hlength]
    obtain he | he := he
    · have hsource := (hends _ (List.mem_append_left _ (SNG.mem_sourceEdges he).1)).1
      have htarget := (SNG.mem_sourceEdges he).2.1
      dsimp only at hsource
      omega
    · have hsource := (SNG.mem_targetEdges he).2.1
      have htarget := (hends _ (List.mem_append_right _ (SNG.mem_targetEdges he).1)).1
      dsimp only at htarget
      omega
  · refine (edges_fit hfit' hok ?_ ?_).trans ((hcs'.trans hcs).flatMap_right _)
    · intro v hv
      simp [SNG.nameOf, List.getElem?_append_left (hlength ▸ hv)]
    · intro i ch hi
      simp [SNG.nameOf, List.getElem?_append_right, hlength, hi]

/-! ## The document is valid -/

theorem validRefs {l : List (Nat × String)} {is : List Interface}
    (hl : (l.map fun s => (SNG.nameOf (actorGraph as) s.1, s.2)).Perm ((endsAt all is).map fun x => (x.1.name, x.2.leaf)))
    (hnames : ∀ a ∈ all, identifier a.name = true) (hports : ∀ p ∈ leafPorts all, identifier p.leaf = true) :
    (SNG.endRefs (actorGraph as) l).all NetworkGraph.validRef = true := by
  rw [List.all_eq_true]
  intro r hr
  obtain ⟨s, hs, rfl⟩ := List.mem_map.mp hr
  have hmem := hl.subset (List.mem_map_of_mem hs)
  obtain ⟨x, hx, heq⟩ := List.mem_map.mp hmem
  obtain ⟨ha, hp, _⟩ := mem_endsAt.mp hx
  obtain ⟨hname, hleaf⟩ := Prod.mk.inj heq
  simp [NetworkGraph.validRef, ← hname, ← hleaf, hnames _ ha, hports _ (mem_leafPorts.mpr ⟨_, ha, hp⟩)]

theorem Fits.valid {c : Chan} {ch : SNG.Chan} (h : Fits all (SNG.nameOf (actorGraph as)) c ch)
    (hload : Loadable as instances ch) (hnames : ∀ a ∈ all, identifier a.name = true)
    (hports : ∀ p ∈ leafPorts all, identifier p.leaf = true) :
    NetworkGraph.validChannel (ch.element (actorGraph as)) = true := by
  have hsources := validRefs h.sources hnames hports
  have htargets := validRefs h.targets hnames hports
  obtain hfifo | hreg := hload.type
  · obtain ⟨capacity, delay, htype, hcap, _⟩ := hfifo.type
    have hlen : ∀ l, (SNG.endRefs (actorGraph as) l).length = l.length := fun l => List.length_map _
    simp only [NetworkGraph.validChannel, SNG.Chan.element, htype, hsources, htargets, hlen, hfifo.source, hfifo.target,
      Option.all_some, SNG.positiveInteger_toString hcap, SNG.nonNegativeInteger_toString]
    rfl
  · unfold SNG.Chan.IsRegister at hreg
    simp [NetworkGraph.validChannel, SNG.Chan.element, hreg, hsources, htargets]

theorem valid_type {a : Actor} {t : String} (ha : a.Linked) (ht : typeIdentifier t = true) (hne : a.ports ≠ [])
    (hports : ∀ p ∈ a.ports, identifier p.leaf = true) : NetworkGraph.validActorType (a.typeElement t) = true := by
  have hperm := typeElement_ports ha t
  have hvalid : ∀ p ∈ (a.typeElement t).ports, NetworkGraph.validPort p = true := by
    intro q hq
    obtain ⟨p, hp, rfl⟩ := List.mem_map.mp (hperm.subset hq)
    cases hd : p.isInput with
    | true => simp [NetworkGraph.validPort, Port.element, (ha.port hp).1, hports p hp, hd]
    | false => simp [NetworkGraph.validPort, Port.element, (ha.port hp).1, hports p hp, hd]
  have hsome : (a.typeElement t).ports ≠ [] := by
    intro hnil
    rw [hnil] at hperm
    exact hne (List.map_eq_nil_iff.mp hperm.nil_eq.symm)
  have hname : (a.typeElement t).name = some t := rfl
  simp [NetworkGraph.validActorType, hname, ht, hsome, List.all_eq_true.mpr hvalid]

end

/-! ## From the simulation to the tools -/

section
variable {pool : List String → String → String} {g : GraphBase}

/-- What is written of the actors: an instance for each, and a type under the name that the instance has. -/
theorem Reached.instances {ctx : SNGDumpCTX} (h : Reached g.actors g.actors g.allChans ctx) (hkeys : g.KeysTell) :
    ∃ (typeOf : Actor → String) (as : List Actor), as.Perm g.actors ∧
      ctx.actorInstances.map Prod.snd = as.map (fun a => ⟨some a.name, some (typeOf a)⟩) ∧
      ∀ a ∈ g.actors, a.typeElement (typeOf a) ∈ ctx.actorTypes.map Prod.snd := by
  have hcached : ∀ a ∈ g.actors, ctx.actorTypeCache.lookup a.key = some ((ctx.actorTypeCache.lookup a.key).getD "") := by
    intro a ha
    obtain ⟨t, ht⟩ := Option.isSome_iff_exists.mp (h.dumped.cached a ha)
    rw [ht]
    rfl
  have hinst : (ctx.actorInstances.map Prod.snd).Perm
      (g.actors.map fun a => ⟨some a.name, some ((ctx.actorTypeCache.lookup a.key).getD "")⟩) := by
    have hmap := h.dumped.instances.map Prod.snd
    rw [List.map_map] at hmap
    refine hmap.trans (List.Perm.of_eq (List.map_congr_left fun a ha => ?_))
    rw [Function.comp_apply, ← hcached a ha]
  have hcomp := congrFun (congrFun (List.eq_map_comp_perm fun a : Actor => (⟨some a.name,
    some ((ctx.actorTypeCache.lookup a.key).getD "")⟩ : ActorInstanceElement)) (ctx.actorInstances.map Prod.snd)) g.actors
  obtain ⟨as, has, hperm⟩ := hcomp.mpr hinst
  refine ⟨fun a => (ctx.actorTypeCache.lookup a.key).getD "", as, hperm, has, fun a ha => ?_⟩
  obtain ⟨-, -, b, hb, hkey, hmem⟩ := h.dumped.types _ _ (hcached a ha)
  obtain ⟨-, hin, hout⟩ := hkeys b hb a ha hkey
  refine List.mem_map.mpr ⟨_, hmem, ?_⟩
  rw [Actor.typeElement, Actor.typeElement, hin, hout]

theorem valid_dumped {types : List ActorTypeElement} {typeOf : Actor → String} {as : List Actor} {cs : List Chan}
    {chs : List SNG.Chan} {instances : List (String × SNG.ActorInstance)} (hok : g.Ok) (hlegible : g.Legible)
    (has : as.Perm g.actors)
    (hname : ∀ e ∈ types, ∃ a ∈ g.actors, ∃ t, e = a.typeElement t ∧ typeIdentifier t = true)
    (htypes : ∀ a ∈ g.actors, a.typeElement (typeOf a) ∈ types) (hloads : ∀ ch ∈ chs, Loadable as instances ch)
    (hfits : List.Forall₂ (Fits g.actors (SNG.nameOf (actorGraph as))) cs chs) :
    NetworkGraph.valid ⟨types, as.map fun a => ⟨some a.name, some (typeOf a)⟩,
      chs.map (SNG.Chan.element (actorGraph as))⟩ = true := by
  have hidentifiers : ∀ a ∈ g.actors, identifier a.name = true := fun a ha => (hlegible.actors a ha).1
  obtain ⟨a, ha⟩ := List.exists_mem_of_ne_nil _ hlegible.nonempty
  unfold NetworkGraph.valid
  simp only [Bool.and_eq_true, List.all_eq_true, decide_eq_true_eq]
  refine ⟨⟨⟨⟨List.ne_nil_of_mem (htypes a ha), ?_⟩, List.ne_nil_of_mem (List.mem_map_of_mem (has.symm.subset ha))⟩, ?_⟩, ?_⟩
  · intro e he
    obtain ⟨a, ha, t, rfl, ht⟩ := hname e he
    exact valid_type (hok.actors_linked ha) ht (hlegible.actors a ha).2.2
      fun p hp => hlegible.ports p (mem_leafPorts.mpr ⟨a, ha, hp⟩)
  · intro i hi
    obtain ⟨a, ha, rfl⟩ := List.mem_map.mp hi
    obtain ⟨b, _, t, heq, ht⟩ := hname _ (htypes a (has.subset ha))
    obtain rfl : typeOf a = t := by
      have hnames := congrArg ActorTypeElement.name heq
      simpa [Actor.typeElement, typeElement] using hnames
    simp [NetworkGraph.validActorInstance, hidentifiers a (has.subset ha), ht]
  · intro e he
    obtain ⟨ch, hch, rfl⟩ := List.mem_map.mp he
    obtain ⟨c, _, hfit⟩ := (Pointwise.forall₂_mem hfits).2 ch hch
    exact hfit.valid (hloads ch hch) hidentifiers hlegible.ports

end

/-- A dumped hierarchy is valid for the schema, and the tools load the graph that depicts it. -/
theorem dump_loads (pool : List String → String → String) (hpool : NamePool pool) (hform : SNG.PoolOk pool) (g : GraphBase)
    (hok : g.Ok) (hreserved : g.Unreserved) (hbacked : g.Backed) (honce : BoundOnce g.actors g.allChans) (hkeys : g.KeysTell)
    (hlegible : g.Legible) :
    ∃ doc sng, dumpSNG pool g = some doc ∧ doc.valid = true ∧ SNG.loadSNG doc = some sng ∧ g.Depicts sng := by
  obtain ⟨ctx, hr, hdump⟩ := dumpSNG_reached hpool hok hreserved hbacked honce
  obtain ⟨typeOf, as, has, hinst, htypes⟩ := hr.instances hkeys
  have htyped := typed_dumpSNG hok hdump
  have hlinked : ∀ a ∈ g.actors, a.Linked := fun a ha => hok.actors_linked ha
  have hname : ∀ e ∈ ctx.actorTypes.map Prod.snd,
      ∃ a ∈ g.actors, ∃ t, e = a.typeElement t ∧ typeIdentifier t = true := by
    intro e he
    obtain ⟨a, ha, used, rfl⟩ := htyped e he
    exact ⟨a, ha, _, rfl, hform.form used _ (hlegible.actors a ha).2.1⟩
  -- the types and the actors
  have hnames : ((ctx.actorTypes.map Prod.snd).map (·.name)).Nodup := by
    have heq : (ctx.actorTypes.map Prod.snd).map (·.name) = (ctx.actorTypes.map Prod.fst).map some := by
      rw [List.map_map, List.map_map]
      exact List.map_congr_left fun e he => (hr.dumped.given e he).2
    rw [heq]
    exact hr.dumped.nodup.map (Option.some_injective _)
  obtain ⟨types, hload, -, hlookup⟩ := loadTypes (l := ctx.actorTypes.map Prod.snd) (m := []) (by
    intro e he
    obtain ⟨a, ha, t, rfl, -⟩ := hname e he
    exact ⟨t, a.loaded, typeElement_eq a t, loaded_nodup (hlinked a ha) (hok.distinct.port_names ha)⟩) (by simpa using hnames)
  have hfound : ∀ a ∈ as, types.lookup (typeOf a) = some a.loaded := by
    intro a ha
    have hmem := htypes a (has.subset ha)
    rw [typeElement_eq] at hmem
    exact hlookup _ _ hmem
  obtain ⟨s, hs, hloaded, hnum⟩ := loadInstances ((has.map _).nodup_iff.mpr hok.distinct.actors) hfound
  rw [← hinst] at hs
  -- the channels
  have hall : ∀ a ∈ g.actors, a ∈ as := fun a ha => has.symm.subset ha
  have hleaves := hlegible.ports
  obtain ⟨es, hes, hdescribes⟩ := hr.channels
  have hloadable : ∀ c (e : String × ChannelElement), c ∈ g.allChans ∧ e.1 = c.name ∧ Describes g.actors c e.2 →
      ∃ ch : SNG.Chan, e.2 = ch.element (actorGraph as) ∧ Loadable as s.actorInstances ch ∧
        Fits g.actors (SNG.nameOf (actorGraph as)) c ch := by
    intro c e h
    exact h.2.2.loadable hok.distinct hlinked hnum hall hleaves (hlegible.tokenSize c h.1) (hlegible.fifos c h.1)
  have helements := ((List.forall₂_and_left _ _).mpr ⟨fun c (hc : c ∈ g.allChans) => hc, hdescribes⟩).imp hloadable
  obtain ⟨cs, hcs, hperm⟩ := List.perm_comp_forall₂ hes helements.flip
  obtain ⟨chs, hchs, hloads, hfits⟩ := exists_chans (List.forall₂_map_left_iff.mpr hcs)
  obtain ⟨chs', hperm', hgraph⟩ := loadSNG_chans ⟨_, _, _⟩ hload hs (by rw [hloaded.graph, List.map_map]; rfl)
    hchs hloads
  refine ⟨_, _, hdump, ?_, hgraph, depicts has hperm hfits hperm' fun ch hch => (hloads ch (hperm'.subset hch)).ok⟩
  rw [hinst, hchs]
  exact valid_dumped hok hlegible has hname htypes hloads hfits

theorem nested_legible : nested.Legible := by
  refine ⟨by decide, by decide +kernel, by decide +kernel, by decide, ?_⟩
  intro c hc depthCount usedCount hkind
  have hfifo : c = ⟨.fifo 2 0, "top.f", 4, [10], [11]⟩ := by
    rw [show nested.allChans = [⟨.fifo 2 0, "top.f", 4, [10], [11]⟩, ⟨.register, "top.r", 4, [20], [21]⟩] from rfl] at hc
    obtain rfl | hc := List.mem_cons.mp hc
    · rfl
    · obtain rfl := List.mem_singleton.mp hc
      cases hkind
  subst hfifo
  cases hkind
  decide

theorem dump_loads_nested : ∃ doc sng, dumpSNG SNG.uniquePool nested = some doc ∧ doc.valid = true ∧
    SNG.loadSNG doc = some sng ∧ nested.Depicts sng :=
  dump_loads SNG.uniquePool uniquePool_names SNG.uniquePool_ok nested nested_ok (by decide +kernel) (by decide +kernel)
    (by decide +kernel) (by decide +kernel) nested_legible

end SysteMoC.Dumper
