import Mathlib.Data.List.Pairwise
import SysteMoC.SngDumperPorts
import SysteMoC.SngRoundTrip

/-!
# A dumped hierarchy is described by its document

What waits after a module is what its actors are bound to, less the channels inside the
module. So a channel finds all its ports in the graph it lies in.
-/

namespace SysteMoC.Dumper

open SNG (ActorTypeElement ActorInstanceElement ActorPortRef ChannelElement PortElement NetworkGraph)

/-! ## What is in a hierarchy -/

mutual

def Module.actors : Module → List Actor
  | .actor a => [a]
  | .graph _ modules _ _ => actorsOf modules

def actorsOf : List Module → List Actor
  | [] => []
  | m :: ms => m.actors ++ actorsOf ms

end

mutual

def Module.chans : Module → List Chan
  | .actor _ => []
  | .graph _ modules chans _ => chansOf modules ++ chans

def chansOf : List Module → List Chan
  | [] => []
  | m :: ms => m.chans ++ chansOf ms

end

mutual

def Module.names : Module → List String
  | .actor a => [a.name]
  | .graph name modules _ _ => name :: namesOf modules

def namesOf : List Module → List String
  | [] => []
  | m :: ms => m.names ++ namesOf ms

end

mutual

def Module.graphPorts : Module → List Port
  | .actor _ => []
  | .graph _ modules _ ports => graphPortsOf modules ++ ports

def graphPortsOf : List Module → List Port
  | [] => []
  | m :: ms => m.graphPorts ++ graphPortsOf ms

end

def Module.ports : Module → List Port
  | .actor a => a.ports
  | .graph _ _ _ ports => ports

/-- The ports of the enclosing graph that the modules are bound to. -/
def parentsOf (ms : List Module) : List Nat := ms.flatMap fun m => m.ports.filterMap (·.parent)

def leafPorts (as : List Actor) : List Port := as.flatMap (·.ports)

theorem mem_actorsOf {a : Actor} {ms : List Module} : a ∈ actorsOf ms ↔ ∃ m ∈ ms, a ∈ m.actors := by
  induction ms with
  | nil => simp [actorsOf]
  | cons m ms ih => simp [actorsOf, ih]

theorem mem_chansOf {c : Chan} {ms : List Module} : c ∈ chansOf ms ↔ ∃ m ∈ ms, c ∈ m.chans := by
  induction ms with
  | nil => simp [chansOf]
  | cons m ms ih => simp [chansOf, ih]

theorem mem_leafPorts {p : Port} {as : List Actor} : p ∈ leafPorts as ↔ ∃ a ∈ as, p ∈ a.ports := List.mem_flatMap

@[simp] theorem leafPorts_append (as bs : List Actor) : leafPorts (as ++ bs) = leafPorts as ++ leafPorts bs := by
  simp [leafPorts]

theorem leafPorts_extends {as bs : List Actor} (h : as <+: bs) : leafPorts as <+: leafPorts bs := by
  obtain ⟨l, rfl⟩ := h
  exact ⟨leafPorts l, (leafPorts_append _ _).symm⟩

def Port.BoundTo (p : Port) (c : Chan) : Prop := ∃ i ∈ p.interfaces, i ∈ c.interfaces

/-! ## Channels -/

def Chan.element (c : Chan) (sources targets : List ActorPortRef) : Option ChannelElement :=
  match c.kind with
  | .fifo depthCount usedCount => some (fifoElement c depthCount usedCount sources targets)
  | .register => some (registerElement c sources targets)
  | .other => none

/-- `refs` are the ports of the actors `all` with an interface in `is`, each once. -/
def Refs (all : List Actor) (is : List Interface) (refs : List ActorPortRef) : Prop :=
  refs.Nodup ∧ ∀ r, r ∈ refs ↔ ∃ a ∈ all, ∃ p ∈ a.ports, (∃ i ∈ is, i ∈ p.interfaces) ∧ r = p.ref a

structure Describes (all : List Actor) (c : Chan) (e : ChannelElement) : Prop where
  element : c.element e.sources e.targets = some e
  sources : Refs all (c.entries.map .entry) e.sources
  targets : Refs all (c.outlets.map .outlet) e.targets

/-- What elaboration makes sure of: names and addresses differ, and no two ports share an entry or outlet. -/
structure Distinct (all : List Actor) (cs : List Chan) : Prop where
  actors : (all.map (·.name)).Nodup
  ports : ((leafPorts all).map (·.name)).Nodup
  apart : (leafPorts all).Pairwise fun p q => ∀ i ∈ p.interfaces, i ∉ q.interfaces
  interfaces : (cs.flatMap (·.interfaces)).Nodup
  chans : (cs.map (·.name)).Nodup

/-- No port is bound twice to one channel. -/
def BoundOnce (all : List Actor) (cs : List Chan) : Prop :=
  ∀ p ∈ leafPorts all, p.interfaces.Nodup ∧
    ∀ c ∈ cs, ∀ i ∈ p.interfaces, ∀ j ∈ p.interfaces, i ∈ c.interfaces → j ∈ c.interfaces → i = j

theorem Distinct.port_eq {all : List Actor} {cs : List Chan} (hd : Distinct all cs) {p q : Port} {i : Interface}
    (hp : p ∈ leafPorts all) (hq : q ∈ leafPorts all) (hip : i ∈ p.interfaces) (hiq : i ∈ q.interfaces) : p = q := by
  by_contra hne
  have : Std.Symm fun p q : Port => ∀ i ∈ p.interfaces, i ∉ q.interfaces := by
    refine ⟨?_⟩
    intro p q h i hiq hip
    exact h i hip hiq
  exact hd.apart.forall hp hq hne i hip hiq

section
variable {all as : List Actor} {cs : List Chan} (hd : Distinct all cs) (honce : BoundOnce all cs)
  (hlinked : ∀ a ∈ as, a.Linked) (hsub : ∀ a ∈ as, a ∈ all)

include hlinked in
theorem leafPort_linked {p : Port} (hp : p ∈ leafPorts as) :
    ∃ a ∈ as, p ∈ a.ports ∧ p.child = none ∧ ∃ port, flummyPort p = some port ∧ port.key = p.name ∧ port.ref = p.ref a := by
  obtain ⟨a, ha, hpa⟩ := mem_leafPorts.mp hp
  obtain ⟨port, hport, hactor, hleaf, -, hkey⟩ := flummyPort_child ((hlinked a ha).named p hpa)
  exact ⟨a, ha, hpa, (hlinked a ha).leaf p hpa, port, hport, hkey, by simp [FlummyPort.ref, Port.ref, hactor, hleaf]⟩

include hsub in
theorem leafPorts_sub {p : Port} (hp : p ∈ leafPorts as) : p ∈ leafPorts all := by
  obtain ⟨a, ha, hpa⟩ := mem_leafPorts.mp hp
  exact mem_leafPorts.mpr ⟨a, hsub a ha, hpa⟩

include hd hlinked hsub in
theorem waiting_leaf {p : Port} {i : Interface} (hp : p ∈ leafPorts as) (hi : i ∈ p.interfaces) :
    waiting (leafPorts as) i = flummyPort p := by
  obtain ⟨-, -, -, hc, port, hport, -, -⟩ := leafPort_linked hlinked hp
  cases hw : waiting (leafPorts as) i with
  | none =>
    have hnone := List.findSome?_eq_none_iff.mp hw p hp
    rw [Port.waits, if_pos ⟨hc, hi⟩, hport] at hnone
    cases hnone
  | some port' =>
    obtain ⟨q, hq, -, hiq, hport'⟩ := waiting_some hw
    rw [← hport', hd.port_eq (leafPorts_sub hsub hp) (leafPorts_sub hsub hq) hi hiq]

include hd honce hlinked hsub in
theorem ends_nodup {c : Chan} (hc : c ∈ cs) {is : List Interface} (hn : is.Nodup) (his : ∀ i ∈ is, i ∈ c.interfaces) :
    ((is.filterMap (waiting (leafPorts as))).map FlummyPort.key).Nodup := by
  rw [List.nodup_iff_pairwise_ne, List.pairwise_map, List.pairwise_filterMap]
  refine (List.nodup_iff_pairwise_ne.mp hn).imp_of_mem ?_
  intro i j hi hj hne f hf g hg hkeys
  obtain ⟨p, hp, -, hip, hpf⟩ := waiting_some hf
  obtain ⟨q, hq, -, hjq, hqg⟩ := waiting_some hg
  obtain ⟨-, -, -, -, f', hf', hpname, -⟩ := leafPort_linked hlinked hp
  obtain ⟨-, -, -, -, g', hg', hqname, -⟩ := leafPort_linked hlinked hq
  obtain rfl : f' = f := Option.some.inj (hf'.symm.trans hpf)
  obtain rfl : g' = g := Option.some.inj (hg'.symm.trans hqg)
  have hpq : p = q := List.inj_on_of_nodup_map hd.ports (leafPorts_sub hsub hp) (leafPorts_sub hsub hq)
    (hpname.symm.trans (hkeys.trans hqname))
  exact hne ((honce p (leafPorts_sub hsub hp)).2 c hc i hip j (hpq ▸ hjq) (his i hi) (his j hj))

include hd honce hlinked hsub in
theorem refs_spec {c : Chan} (hc : c ∈ cs) (hcont : ∀ a ∈ all, (∃ p ∈ a.ports, p.BoundTo c) → a ∈ as)
    {is : List Interface} (hn : is.Nodup) (his : ∀ i ∈ is, i ∈ c.interfaces) {refs : List ActorPortRef}
    (hrefs : refs.Perm ((is.filterMap (waiting (leafPorts as))).map FlummyPort.ref)) : Refs all is refs := by
  refine ⟨?_, fun r => ?_⟩
  · refine hrefs.nodup_iff.mpr (List.Nodup.of_map (fun r => r.actor.getD "" ++ "." ++ r.port.getD "") ?_)
    rw [List.map_map]
    exact ends_nodup hd honce hlinked hsub hc hn his
  · rw [hrefs.mem_iff, List.mem_map]
    refine ⟨?_, ?_⟩
    · intro h
      obtain ⟨f, hf, rfl⟩ := h
      obtain ⟨i, hi, hw⟩ := List.mem_filterMap.mp hf
      obtain ⟨p, hp, -, hip, hpf⟩ := waiting_some hw
      obtain ⟨a, ha, hpa, -, f', hf', -, href⟩ := leafPort_linked hlinked hp
      obtain rfl : f' = f := Option.some.inj (hf'.symm.trans hpf)
      exact ⟨a, hsub a ha, p, hpa, ⟨i, hi, hip⟩, href⟩
    · intro h
      obtain ⟨a, ha, p, hpa, ⟨i, hi, hip⟩, rfl⟩ := h
      have has : a ∈ as := hcont a ha ⟨p, hpa, i, hip, his i hi⟩
      have hp : p ∈ leafPorts as := mem_leafPorts.mpr ⟨a, has, hpa⟩
      obtain ⟨port, hport, hactor, hleaf, -, -⟩ := flummyPort_child ((hlinked a has).named p hpa)
      have hw := waiting_leaf hd hlinked hsub hp hip
      refine ⟨port, List.mem_filterMap.mpr ⟨i, hi, hw.trans hport⟩, ?_⟩
      simp [FlummyPort.ref, Port.ref, hactor, hleaf]

include hd honce hlinked hsub in
theorem dumpChan_spec {c : Chan} (hc : c ∈ cs) (hkind : c.kind ≠ .other)
    (hcont : ∀ a ∈ all, (∃ p ∈ a.ports, p.BoundTo c) → a ∈ as) {s : SNGDumpCTX × Expected}
    (hconns : ∀ i ∈ c.interfaces, s.2.conns i = waiting (leafPorts as) i)
    (hname : c.name ∉ s.1.channelInstances.map Prod.fst) :
    ∃ e m, dumpChan s c = some ({ s.1 with channelInstances := m },
        { s.2 with conns := fun i => if i ∈ c.interfaces then none else s.2.conns i }) ∧
      m.Perm ((c.name, e) :: s.1.channelInstances) ∧ Describes all c e := by
  have hn : c.interfaces.Nodup := (List.nodup_flatMap.mp hd.interfaces).1 c hc
  have hparts := List.nodup_append'.mp hn
  have hins : ∀ i ∈ c.entries.map Interface.entry, i ∈ c.interfaces := by
    intro i hi
    exact List.mem_append_left _ hi
  have houts : ∀ i ∈ c.outlets.map Interface.outlet, i ∈ c.interfaces := by
    intro i hi
    exact List.mem_append_right _ hi
  have hentries : (c.entries.map Interface.entry).filterMap s.2.conns =
      (c.entries.map Interface.entry).filterMap (waiting (leafPorts as)) :=
    List.filterMap_congr fun i hi => hconns i (hins i hi)
  have houtlets : (c.outlets.map Interface.outlet).filterMap s.2.conns =
      (c.outlets.map Interface.outlet).filterMap (waiting (leafPorts as)) :=
    List.filterMap_congr fun i hi => hconns i (houts i hi)
  have hfit : EndsFit s.2.conns c := by
    refine ⟨hn, ?_, ?_⟩
    · rw [hentries]
      exact ends_nodup hd honce hlinked hsub hc hparts.1 hins
    · rw [houtlets]
      exact ends_nodup hd honce hlinked hsub hc hparts.2.1 houts
  have hdump (element : List ActorPortRef → List ActorPortRef → ChannelElement) :=
    dumpConnections_spec element hfit hname
  have hrefs {sources targets : List ActorPortRef}
      (hs : sources.Perm (((c.entries.map Interface.entry).filterMap s.2.conns).map FlummyPort.ref))
      (ht : targets.Perm (((c.outlets.map Interface.outlet).filterMap s.2.conns).map FlummyPort.ref)) :
      Refs all (c.entries.map .entry) sources ∧ Refs all (c.outlets.map .outlet) targets :=
    ⟨refs_spec hd honce hlinked hsub hc hcont hparts.1 hins (hentries ▸ hs),
      refs_spec hd honce hlinked hsub hc hcont hparts.2.1 houts (houtlets ▸ ht)⟩
  cases hk : c.kind with
  | fifo depthCount usedCount =>
    obtain ⟨sources, targets, m, hrun, hm, hs, ht⟩ := hdump (fifoElement c depthCount usedCount)
    refine ⟨_, m, ?_, hm, ?_, (hrefs hs ht).1, (hrefs hs ht).2⟩
    · simp only [dumpChan, hk, dumpFifo, hrun]
    · simp [Chan.element, hk, fifoElement]
  | register =>
    obtain ⟨sources, targets, m, hrun, hm, hs, ht⟩ := hdump (registerElement c)
    refine ⟨_, m, ?_, hm, ?_, (hrefs hs ht).1, (hrefs hs ht).2⟩
    · simp only [dumpChan, hk, dumpRegister, hrun]
    · simp [Chan.element, hk, registerElement]
  | other => exact absurd hk hkind

include hd honce hlinked hsub in
theorem dumpChans_spec {own : List Chan} (hown : ∀ c ∈ own, c ∈ cs) (hkind : ∀ c ∈ own, c.kind ≠ .other)
    (hcont : ∀ c ∈ own, ∀ a ∈ all, (∃ p ∈ a.ports, p.BoundTo c) → a ∈ as) (hn : (own.flatMap (·.interfaces)).Nodup)
    {s : SNGDumpCTX × Expected} (hconns : ∀ i ∈ own.flatMap (·.interfaces), s.2.conns i = waiting (leafPorts as) i)
    (hnames : (s.1.channelInstances.map Prod.fst ++ own.map (·.name)).Nodup) :
    ∃ es m, own.foldlM dumpChan s = some ({ s.1 with channelInstances := m },
        { s.2 with conns := fun i => if i ∈ own.flatMap (·.interfaces) then none else s.2.conns i }) ∧
      m.Perm (s.1.channelInstances ++ es) ∧ List.Forall₂ (fun c e => e.1 = c.name ∧ Describes all c e.2) own es := by
  induction own generalizing s with
  | nil => exact ⟨[], s.1.channelInstances, by simp, by simp, .nil⟩
  | cons c own ih =>
    rw [List.flatMap_cons] at hn
    have hparts := List.nodup_append'.mp hn
    have hfresh : c.name ∉ s.1.channelInstances.map Prod.fst := by
      intro hmem
      exact List.disjoint_of_nodup_append hnames hmem (by simp)
    obtain ⟨e, m, hstep, hm, hdesc⟩ := dumpChan_spec hd honce hlinked hsub (hown c (by simp)) (hkind c (by simp))
      (hcont c (by simp)) (fun i hi => hconns i (by simp [hi])) hfresh
    have hkeys : (m.map Prod.fst ++ own.map (·.name)).Nodup := by
      have hperm : (m.map Prod.fst ++ own.map (·.name)).Perm
          (s.1.channelInstances.map Prod.fst ++ (c :: own).map (·.name)) :=
        ((hm.map Prod.fst).append_right _).trans List.perm_middle.symm
      exact hperm.nodup_iff.mpr hnames
    have hwait : ∀ i ∈ own.flatMap (·.interfaces),
        (if i ∈ c.interfaces then none else s.2.conns i) = waiting (leafPorts as) i := by
      intro i hi
      rw [if_neg fun hic => hparts.2.2 hic hi]
      exact hconns i (by simp only [List.flatMap_cons, List.mem_append]; exact Or.inr hi)
    obtain ⟨es, m', hrun, hm', hall⟩ := ih (fun d hd => hown d (by simp [hd])) (fun d hd => hkind d (by simp [hd]))
      (fun d hd => hcont d (by simp [hd])) hparts.2.1
      (s := ({ s.1 with channelInstances := m },
        { s.2 with conns := fun i => if i ∈ c.interfaces then none else s.2.conns i })) hwait hkeys
    refine ⟨(c.name, e) :: es, m', ?_, ?_, .cons ⟨rfl, hdesc⟩ hall⟩
    · rw [List.foldlM_cons, hstep]
      refine hrun.trans ?_
      refine congrArg some (Prod.ext rfl ?_)
      dsimp only
      congr 1
      funext i
      by_cases hi : i ∈ own.flatMap (·.interfaces)
      · simp [hi]
      · by_cases hic : i ∈ c.interfaces
        · simp [hic]
        · simp [hi, hic]
    · exact hm'.trans ((hm.append_right es).trans List.perm_middle.symm)

end

/-! ## Modules -/

/-- A graph's own channels and ports, with its modules and all actors of the hierarchy. -/
structure GraphLinked (all : List Actor) (name : String) (ms : List Module) (cs : List Chan) (ps : List Port) : Prop where
  names : ∀ p ∈ ps, IsChildName name p.name
  addresses : (ps.map (·.address)).Nodup
  parents : (parentsOf ms).Nodup
  forwarded : ∀ q ∈ parentsOf ms, q ∈ ps.map (·.address)
  kinds : ∀ c ∈ cs, c.kind ≠ .other
  contained : ∀ c ∈ cs, ∀ a ∈ all, (∃ p ∈ a.ports, p.BoundTo c) → a ∈ actorsOf ms

inductive Linked (all : List Actor) : Module → Prop where
  | actor {a : Actor} (ha : a.Linked) : Linked all (.actor a)
  | graph {name : String} {ms : List Module} {cs : List Chan} {ps : List Port} (hms : ∀ m ∈ ms, Linked all m)
      (hg : GraphLinked all name ms cs ps) : Linked all (.graph name ms cs ps)

theorem Linked.actors_linked {all : List Actor} {m : Module} (h : Linked all m) : ∀ a ∈ m.actors, a.Linked := by
  induction h with
  | actor ha =>
    intro a hmem
    rwa [List.mem_singleton.mp hmem]
  | graph hms hg ih =>
    intro a hmem
    obtain ⟨m, hm, ham⟩ := mem_actorsOf.mp hmem
    exact ih m hm a ham

/-- A channel's actors lie in the module the channel lies in. -/
theorem Linked.contained {all : List Actor} {m : Module} (h : Linked all m) :
    ∀ c ∈ m.chans, ∀ a ∈ all, (∃ p ∈ a.ports, p.BoundTo c) → a ∈ m.actors := by
  induction h with
  | actor ha =>
    intro c hc
    cases hc
  | graph hms hg ih =>
    intro c hc a ha hbound
    obtain hc | hc := List.mem_append.mp hc
    · obtain ⟨m, hm, hcm⟩ := mem_chansOf.mp hc
      exact mem_actorsOf.mpr ⟨m, hm, ih m hm c hcm a ha hbound⟩
    · exact hg.contained c hc a ha hbound

/-- What waits after the actors `as` and the channels `cs`. -/
def left (as : List Actor) (cs : List Chan) (i : Interface) : Option FlummyPort :=
  if i ∈ cs.flatMap (·.interfaces) then none else waiting (leafPorts as) i

theorem left_append {as bs : List Actor} {cs ds : List Chan} {i : Interface}
    (hc : i ∈ cs.flatMap (·.interfaces) → waiting (leafPorts bs) i = none)
    (hd : i ∈ ds.flatMap (·.interfaces) → waiting (leafPorts as) i = none) :
    (left as cs i).or (left bs ds i) = left (as ++ bs) (cs ++ ds) i := by
  unfold left
  rw [List.flatMap_append, leafPorts_append, waiting_append]
  by_cases hic : i ∈ cs.flatMap (·.interfaces)
  · simp [hic, hc hic]
  · by_cases hid : i ∈ ds.flatMap (·.interfaces)
    · simp [hid, hd hid]
    · simp [hic, hid]

/-- After the actors `as` and the channels `cs` of a hierarchy with the actors `all`. -/
structure Reached (all as : List Actor) (cs : List Chan) (ctx : SNGDumpCTX) : Prop where
  dumped : Dumped as ctx
  channels : ∃ es, ctx.channelInstances.Perm es ∧
    List.Forall₂ (fun c e => e.1 = c.name ∧ Describes all c e.2) cs es

theorem Reached.names {all as : List Actor} {cs : List Chan} {ctx : SNGDumpCTX} (h : Reached all as cs ctx) :
    (ctx.channelInstances.map Prod.fst).Perm (cs.map (·.name)) := by
  obtain ⟨es, hperm, hall⟩ := h.channels
  refine (hperm.map Prod.fst).trans (List.Perm.of_eq ?_)
  clear hperm h
  induction hall with
  | nil => rfl
  | cons hce _ ih => rw [List.map_cons, List.map_cons, hce.1, ih]

section
variable {pool : List String → String → String} (hpool : NamePool pool) {all : List Actor} {cs : List Chan}
  (hd : Distinct all cs) (honce : BoundOnce all cs)

include hpool hd honce in
theorem dumpActor_spec {a : Actor} (ha : a.Linked) {as : List Actor} {done : List Chan} {ctx : SNGDumpCTX} {epc : Expected}
    (hr : Reached all as done ctx) (hinit : as ++ [a] <+: all)
    (hparents : (epc.outer ++ a.ports.filterMap (·.parent)).Nodup)
    (hfree : ∀ p ∈ a.ports, ∀ i ∈ p.interfaces, epc.conns i = none) :
    ∃ ctx', dumpActor pool (ctx, epc) a = some (ctx', ⟨epc.outer ++ a.ports.filterMap (·.parent),
        fun i => (epc.conns i).or (left [a] [] i)⟩) ∧ Reached all (as ++ [a]) done ctx' := by
  have hmem : a ∈ all := hinit.subset (by simp)
  have hleaf : ∀ p ∈ a.ports, p ∈ leafPorts all := fun p hp => mem_leafPorts.mpr ⟨a, hmem, hp⟩
  have hsub : a.ports.Sublist (leafPorts all) := by
    obtain ⟨l, r, rfl⟩ := List.append_of_mem hmem
    simp [leafPorts]
  have hfits : PortsFit ⟨.empty, epc, []⟩ a.ports := by
    refine ⟨?_, ?_, ?_, ?_, ?_, hparents⟩
    · intro p hp
      obtain ⟨port, hport, -⟩ := flummyPort_child (ha.named p hp)
      rw [hport]
      rfl
    · simpa using ha.addresses
    · intro p hp _
      exact (honce p (hleaf p hp)).1
    · refine (hd.apart.sublist hsub).imp ?_
      intro p q hpq _
      exact hpq
    · intro p hp _
      exact hfree p hp
  have hnames : (a.ports.map (·.name)).Nodup := (hsub.map _).nodup hd.ports
  obtain ⟨ctx', t, htype, hinst, hchan, hdumped⟩ := hr.dumped.dumpType hpool ha
  have hfresh : a.name ∉ ctx'.actorInstances.map Prod.fst := by
    have hall : ((as ++ [a]).map (·.name)).Nodup := (hinit.sublist.map _).nodup hd.actors
    rw [hinst, (hr.dumped.instances.map Prod.fst).mem_iff, List.map_map]
    intro hmem
    rw [List.map_append] at hall
    exact List.disjoint_of_nodup_append hall hmem (by simp)
  obtain ⟨m, hm, hperm⟩ := insertOnce_spec (⟨some a.name, some t⟩ : ActorInstanceElement) hfresh
  refine ⟨{ ctx' with actorInstances := m }, ?_, hdumped m (hinst ▸ hperm), ?_⟩
  · have hleft : left [a] [] = waiting a.ports := by
      funext i
      simp [left, leafPorts]
    unfold dumpActor
    rw [dumpPorts_eq hfits]
    simp only [Option.bind_eq_bind, Option.bind_some, List.nil_append, portNames_eq ha hnames, htype, hm, hleft]
    simp [Expected.empty]
  · obtain ⟨es, hes, hall⟩ := hr.channels
    exact ⟨es, hchan ▸ hes, hall⟩

omit hpool hd honce in
theorem waiting_foreign {as bs : List Actor} {ds : List Chan} (hdisj : ∀ a ∈ as, a ∉ bs) (hbs : ∀ a ∈ bs, a ∈ all)
    (hcont : ∀ c ∈ ds, ∀ a ∈ all, (∃ p ∈ a.ports, p.BoundTo c) → a ∈ as) {i : Interface}
    (hi : i ∈ ds.flatMap (·.interfaces)) : waiting (leafPorts bs) i = none := by
  refine waiting_none fun p hp _ hip => ?_
  obtain ⟨c, hc, hic⟩ := List.mem_flatMap.mp hi
  obtain ⟨a, ha, hpa⟩ := mem_leafPorts.mp hp
  exact hdisj a (hcont c hc a (hbs a ha) ⟨p, hpa, i, hip, hic⟩) ha

/-- What dumping the module `m` does, wherever it stands in the hierarchy. -/
def Dumps (pool : List String → String → String) (all : List Actor) (cs : List Chan) (m : Module) : Prop :=
  ∀ (as : List Actor) (done : List Chan) (ctx : SNGDumpCTX) (epc : Expected), Reached all as done ctx →
    as ++ m.actors <+: all → done ++ m.chans <+: cs → (epc.outer ++ m.ports.filterMap (·.parent)).Nodup →
    (∀ p ∈ leafPorts m.actors, ∀ i ∈ p.interfaces, epc.conns i = none) → (∀ n ∈ m.names, reserved n = false) →
    (∀ p ∈ m.graphPorts, p.child ≠ none) →
    ∃ ctx', dumpModule pool (ctx, epc) m = some (ctx', ⟨epc.outer ++ m.ports.filterMap (·.parent),
        fun i => (epc.conns i).or (left m.actors m.chans i)⟩) ∧
      Reached all (as ++ m.actors) (done ++ m.chans) ctx'

omit hpool honce in
include hd in
theorem dumpModules_spec {ms : List Module} (hms : ∀ m ∈ ms, Linked all m) (ih : ∀ m ∈ ms, Dumps pool all cs m)
    {as : List Actor} {done : List Chan} {ctx : SNGDumpCTX} (epc : Expected) (hr : Reached all as done ctx)
    (hinit : as ++ actorsOf ms <+: all) (hchans : done ++ chansOf ms <+: cs) (houter : (epc.outer ++ parentsOf ms).Nodup)
    (hfree : ∀ p ∈ leafPorts (actorsOf ms), ∀ i ∈ p.interfaces, epc.conns i = none)
    (hnames : ∀ n ∈ namesOf ms, reserved n = false) (hports : ∀ p ∈ graphPortsOf ms, p.child ≠ none) :
    ∃ ctx', dumpModules pool (ctx, epc) ms = some (ctx', ⟨epc.outer ++ parentsOf ms,
        fun i => (epc.conns i).or (left (actorsOf ms) (chansOf ms) i)⟩) ∧
      Reached all (as ++ actorsOf ms) (done ++ chansOf ms) ctx' := by
  induction ms generalizing as done ctx epc with
  | nil =>
    refine ⟨ctx, ?_, ?_⟩
    · simp [dumpModules, parentsOf, left, actorsOf, chansOf, leafPorts, waiting]
    · simpa [actorsOf, chansOf] using hr
  | cons m ms ihms =>
    simp only [actorsOf, chansOf, ← List.append_assoc] at hinit hchans
    have hparents : parentsOf (m :: ms) = m.ports.filterMap (·.parent) ++ parentsOf ms := by simp [parentsOf]
    rw [hparents, ← List.append_assoc] at houter
    simp only [actorsOf, leafPorts_append, List.mem_append] at hfree
    simp only [namesOf, List.mem_append] at hnames
    simp only [graphPortsOf, List.mem_append] at hports
    have hnodup : (as ++ m.actors ++ actorsOf ms).Nodup := (hinit.sublist).nodup hd.actors.of_map
    have hdisj : ∀ a ∈ m.actors, a ∉ actorsOf ms := by
      intro a ha hmem
      exact List.disjoint_of_nodup_append hnodup (List.mem_append_right _ ha) hmem
    have hall : ∀ a ∈ m.actors, a ∈ all := fun a ha => hinit.subset (by simp [ha])
    have hall' : ∀ a ∈ actorsOf ms, a ∈ all := fun a ha => hinit.subset (by simp [ha])
    obtain ⟨ctx₁, hstep, hr₁⟩ := ih m (by simp) as done ctx epc hr ((List.prefix_append _ _).trans hinit)
      ((List.prefix_append _ _).trans hchans) ((List.sublist_append_left _ _).nodup houter)
      (fun p hp => hfree p (.inl hp)) (fun n hn => hnames n (.inl hn)) (fun p hp => hports p (.inl hp))
    have hfree₁ : ∀ p ∈ leafPorts (actorsOf ms), ∀ i ∈ p.interfaces,
        (epc.conns i).or (left m.actors m.chans i) = none := by
      intro p hp i hi
      have hwait : waiting (leafPorts m.actors) i = none := by
        refine waiting_none fun q hq _ hiq => ?_
        have hpq : p = q := hd.port_eq (leafPorts_sub hall' hp) (leafPorts_sub hall hq) hi hiq
        obtain ⟨a, ha, hpa⟩ := mem_leafPorts.mp hp
        obtain ⟨b, hb, hqb⟩ := mem_leafPorts.mp hq
        have hports : ((leafPorts (as ++ m.actors ++ actorsOf ms)).map (·.name)).Nodup :=
          ((leafPorts_extends hinit).sublist.map _).nodup hd.ports
        rw [leafPorts_append, leafPorts_append] at hports
        exact List.disjoint_of_nodup_append hports.of_map (List.mem_append_right _ hq) (hpq ▸ hp)
      rw [hfree p (.inr hp) i hi, Option.none_or, left, hwait, ite_self]
    obtain ⟨ctx₂, hrun, hr₂⟩ := ihms (fun m' hm' => hms m' (by simp [hm'])) (fun m' hm' => ih m' (by simp [hm']))
      ⟨epc.outer ++ m.ports.filterMap (·.parent), fun i => (epc.conns i).or (left m.actors m.chans i)⟩
      hr₁ hinit hchans houter hfree₁ (fun n hn => hnames n (.inr hn)) (fun p hp => hports p (.inr hp))
    refine ⟨ctx₂, ?_, ?_⟩
    · rw [dumpModules, hstep]
      refine hrun.trans ?_
      simp only [hparents, List.append_assoc, Option.or_assoc, actorsOf, chansOf]
      congr 3
      funext i
      congr 1
      refine left_append (fun hi => ?_) (fun hi => ?_)
      · exact waiting_foreign hdisj hall' ((hms m (by simp)).contained) hi
      · refine waiting_foreign (fun (a : Actor) (ha : a ∈ actorsOf ms) hmem => hdisj a hmem ha) hall (fun c hc a ha hbound => ?_) hi
        obtain ⟨m', hm', hcm'⟩ := mem_chansOf.mp hc
        exact mem_actorsOf.mpr ⟨m', hm', (hms m' (by simp [hm'])).contained c hcm' a ha hbound⟩
    · simpa [actorsOf, chansOf] using hr₂

omit hpool in
include hd honce in
theorem closeGraph_spec {name : String} {ms : List Module} {own : List Chan}
    {ps : List Port} (hms : ∀ m ∈ ms, Linked all m) (hg : GraphLinked all name ms own ps) {as : List Actor}
    {done : List Chan} {ctx : SNGDumpCTX} (epc : Expected) (hr : Reached all (as ++ actorsOf ms) (done ++ chansOf ms) ctx)
    (hinit : as ++ actorsOf ms <+: all) (hchans : done ++ (chansOf ms ++ own) <+: cs)
    (hparents : (epc.outer ++ ps.filterMap (·.parent)).Nodup) (hports : ∀ p ∈ ps, p.child ≠ none) :
    ∃ ctx', closeGraph (ctx, ⟨parentsOf ms, left (actorsOf ms) (chansOf ms)⟩) epc own ps =
        some (ctx', ⟨epc.outer ++ ps.filterMap (·.parent),
          fun i => (epc.conns i).or (left (actorsOf ms) (chansOf ms ++ own) i)⟩) ∧
      Reached all (as ++ actorsOf ms) (done ++ (chansOf ms ++ own)) ctx' := by
  rw [← List.append_assoc] at hchans
  have hsub : ∀ a ∈ actorsOf ms, a ∈ all := fun a ha => hinit.subset (by simp [ha])
  have hlinked : ∀ a ∈ actorsOf ms, a.Linked := by
    intro a ha
    obtain ⟨m, hm, ham⟩ := mem_actorsOf.mp ha
    exact (hms m hm).actors_linked a ham
  have hinterfaces : ((done ++ chansOf ms ++ own).flatMap (·.interfaces)).Nodup := by
    obtain ⟨rest, rfl⟩ := hchans
    have hn := hd.interfaces
    rw [List.flatMap_append] at hn
    exact (List.nodup_append'.mp hn).1
  have hnames : (ctx.channelInstances.map Prod.fst ++ own.map (·.name)).Nodup := by
    have hn : ((done ++ chansOf ms ++ own).map (·.name)).Nodup := (hchans.sublist.map _).nodup hd.chans
    rw [List.map_append] at hn
    exact (hr.names.append_right _).nodup_iff.mpr hn
  rw [List.flatMap_append] at hinterfaces
  have hparts := List.nodup_append'.mp hinterfaces
  have hconns : ∀ i ∈ own.flatMap (·.interfaces), left (actorsOf ms) (chansOf ms) i = waiting (leafPorts (actorsOf ms)) i := by
    intro i hi
    refine if_neg fun hmem => hparts.2.2 ?_ hi
    rw [List.flatMap_append]
    exact List.mem_append_right _ hmem
  obtain ⟨es, m, hrun, hm, hall⟩ := dumpChans_spec hd honce hlinked hsub
    (fun c hc => hchans.subset (List.mem_append_right _ hc)) hg.kinds hg.contained hparts.2.1
    (s := (ctx, ⟨parentsOf ms, left (actorsOf ms) (chansOf ms)⟩)) hconns hnames
  have hfits : PortsFit ⟨⟨parentsOf ms, fun i => if i ∈ own.flatMap (·.interfaces) then none else
      left (actorsOf ms) (chansOf ms) i⟩, epc, []⟩ ps := by
    refine ⟨?_, ?_, ?_, ?_, ?_, hparents⟩
    · intro p hp
      obtain ⟨port, hport, -⟩ := flummyPort_child (hg.names p hp)
      rw [hport]
      rfl
    · simpa using hg.addresses
    · intro p hp hc
      exact absurd hc (hports p hp)
    · refine List.Pairwise.imp_of_mem ?_ (List.pairwise_of_forall fun _ _ => trivial)
      intro p q hp _ _ hc
      exact absurd hc (hports p hp)
    · intro p hp hc
      exact absurd hc (hports p hp)
  have hnone : waiting ps = fun _ => none := by
    funext i
    refine waiting_none fun p hp hc => ?_
    exact absurd hc (hports p hp)
  have hempty : (parentsOf ms).diff (ps.map (·.address)) = [] := by
    refine List.eq_nil_iff_forall_not_mem.mpr fun q hq => ?_
    rw [hg.parents.mem_sdiff_iff] at hq
    exact hq.2 (hg.forwarded q hq.1)
  refine ⟨{ ctx with channelInstances := m }, ?_, ⟨hr.dumped.instances, hr.dumped.cached, hr.dumped.types,
    hr.dumped.distinct, hr.dumped.given, hr.dumped.nodup⟩, ?_⟩
  · unfold closeGraph
    rw [hrun]
    simp only [Option.bind_eq_bind, Option.bind_some]
    rw [dumpPorts_eq hfits]
    simp only [Option.bind_some, hempty, if_true, hnone, Option.or_none]
    congr 3
    funext i
    congr 1
    unfold left
    rw [List.flatMap_append]
    by_cases hi : i ∈ own.flatMap (·.interfaces)
    · rw [if_pos hi, if_pos (List.mem_append_right _ hi)]
    · by_cases hi' : i ∈ (chansOf ms).flatMap (·.interfaces)
      · rw [if_neg hi, if_pos hi', if_pos (List.mem_append_left _ hi')]
      · rw [if_neg hi, if_neg hi', if_neg fun hmem => (List.mem_append.mp hmem).elim hi' hi]
  · obtain ⟨es', hes', hall'⟩ := hr.channels
    refine ⟨es' ++ es, hm.trans (hes'.append_right es), ?_⟩
    rw [← List.append_assoc]
    exact List.rel_append hall' hall

include hpool hd honce in
theorem dumpModule_spec {m : Module} (h : Linked all m) : Dumps pool all cs m := by
  induction h with
  | @actor a ha =>
    intro as done ctx epc hr hinit hchans houter hfree hnames _
    have hres : reserved a.name = false := hnames a.name (by simp [Module.names])
    obtain ⟨ctx', hdump, hr'⟩ := dumpActor_spec hpool hd honce ha hr hinit houter
      (fun p hp => hfree p (by simpa [Module.actors, leafPorts] using hp))
    refine ⟨ctx', ?_, ?_⟩
    · rw [dumpModule, hres]
      exact hdump
    · simpa [Module.actors, Module.chans] using hr'
  | @graph name ms own ps hms hg ih =>
    intro as done ctx epc hr hinit hchans houter hfree hnames hports
    simp only [Module.actors] at hinit
    simp only [Module.chans] at hchans
    simp only [Module.names, List.mem_cons] at hnames
    simp only [Module.graphPorts, List.mem_append] at hports
    have hres : reserved name = false := hnames name (.inl rfl)
    obtain ⟨ctx₁, hinner, hr₁⟩ := dumpModules_spec hd hms ih .empty hr hinit
      ((List.prefix_append _ _).trans (by rwa [List.append_assoc])) (by simpa [Expected.empty] using hg.parents)
      (fun _ _ _ _ => rfl) (fun n hn => hnames n (.inr hn)) (fun p hp => hports p (.inl hp))
    obtain ⟨ctx₂, hclose, hr₂⟩ := closeGraph_spec hd honce hms hg epc hr₁ hinit hchans houter fun p hp => hports p (.inr hp)
    refine ⟨ctx₂, ?_, hr₂⟩
    simp only [Expected.empty, List.nil_append, Option.none_or] at hinner
    rw [dumpModule, hres]
    simp only [Bool.false_eq_true, if_false, Expected.empty, hinner, Option.bind_eq_bind, Option.bind_some]
    exact hclose

end

/-! ## The whole hierarchy -/

namespace GraphBase

def actors (g : GraphBase) : List Actor := actorsOf g.modules

def allChans (g : GraphBase) : List Chan := chansOf g.modules ++ g.chans

/-- A hierarchy after elaboration, with its channels in graphs that hold all their actors. -/
structure Ok (g : GraphBase) : Prop where
  modules : ∀ m ∈ g.modules, Linked g.actors m
  graph : GraphLinked g.actors g.name g.modules g.chans g.ports
  top : ∀ p ∈ g.ports, p.parent = none
  distinct : Distinct g.actors g.allChans

/-- No module has the name of an internal one. -/
def Unreserved (g : GraphBase) : Prop := ∀ n ∈ namesOf g.modules, reserved n = false

/-- Each port of a graph has a port behind it in one of the graph's modules. -/
def Backed (g : GraphBase) : Prop := ∀ p ∈ graphPortsOf g.modules ++ g.ports, p.child ≠ none

/-- The key under which an actor's type is cached tells its class and its ports. -/
def KeysTell (g : GraphBase) : Prop :=
  ∀ a ∈ g.actors, ∀ b ∈ g.actors, a.key = b.key →
    a.className = b.className ∧ a.names true = b.names true ∧ a.names false = b.names false

/-- Each actor has one instance of a type with its ports, each channel one element with its ports. -/
def Describes (g : GraphBase) (doc : NetworkGraph) : Prop :=
  ∃ (typeOf : Actor → String) (es : List ChannelElement),
    doc.actorInstances.Perm (g.actors.map fun a => ⟨some a.name, some (typeOf a)⟩) ∧
    (doc.actorTypes.map (·.name)).Nodup ∧
    (∀ a ∈ g.actors, ∃ ports, ⟨some (typeOf a), ports⟩ ∈ doc.actorTypes ∧ ports.Perm (a.ports.map Port.element)) ∧
    (∀ a ∈ g.actors, ∀ b ∈ g.actors, typeOf a = typeOf b →
      a.className = b.className ∧ (a.ports.map Port.element).Perm (b.ports.map Port.element)) ∧
    doc.channels.Perm es ∧ List.Forall₂ (Dumper.Describes g.actors) g.allChans es

end GraphBase

theorem Actor.element_perm {a b : Actor} (ha : a.Linked) (hb : b.Linked) (hin : a.names true = b.names true)
    (hout : a.names false = b.names false) : (a.ports.map Port.element).Perm (b.ports.map Port.element) := by
  have hsame : (a.typeElement "").ports = (b.typeElement "").ports := by
    rw [Actor.typeElement, Actor.typeElement, hin, hout]
  exact (typeElement_ports ha "").symm.trans (hsame ▸ typeElement_ports hb "")

theorem Reached.describes {g : GraphBase} {ctx : SNGDumpCTX} (h : Reached g.actors g.actors g.allChans ctx)
    (hlinked : ∀ a ∈ g.actors, a.Linked) (hkeys : g.KeysTell) :
    g.Describes ⟨ctx.actorTypes.map Prod.snd, ctx.actorInstances.map Prod.snd, ctx.channelInstances.map Prod.snd⟩ := by
  have hcached : ∀ a ∈ g.actors, ctx.actorTypeCache.lookup a.key = some ((ctx.actorTypeCache.lookup a.key).getD "") := by
    intro a ha
    obtain ⟨t, ht⟩ := Option.isSome_iff_exists.mp (h.dumped.cached a ha)
    rw [ht]
    rfl
  obtain ⟨es, hes, hall⟩ := h.channels
  refine ⟨fun a => (ctx.actorTypeCache.lookup a.key).getD "", es.map Prod.snd, ?_, ?_, ?_, ?_, hes.map _, ?_⟩
  · have hmap := h.dumped.instances.map Prod.snd
    rw [List.map_map] at hmap
    refine hmap.trans (List.Perm.of_eq (List.map_congr_left fun a ha => ?_))
    rw [Function.comp_apply, ← hcached a ha]
  · have hnames : (ctx.actorTypes.map Prod.snd).map (·.name) = (ctx.actorTypes.map Prod.fst).map some := by
      rw [List.map_map, List.map_map]
      exact List.map_congr_left fun e he => (h.dumped.given e he).2
    rw [hnames]
    exact h.dumped.nodup.map (Option.some_injective _)
  · intro a ha
    obtain ⟨-, -, b, hb, hkey, hmem⟩ := h.dumped.types _ _ (hcached a ha)
    obtain ⟨-, hin, hout⟩ := hkeys b hb a ha hkey
    refine ⟨(b.typeElement ((ctx.actorTypeCache.lookup a.key).getD "")).ports, List.mem_map.mpr ⟨_, hmem, rfl⟩, ?_⟩
    exact (typeElement_ports (hlinked b hb) _).trans (Actor.element_perm (hlinked b hb) (hlinked a ha) hin hout)
  · intro a ha b hb heq
    dsimp only at heq
    have hb' := hcached b hb
    rw [← heq] at hb'
    obtain ⟨hclass, hin, hout⟩ := hkeys a ha b hb (h.dumped.distinct _ _ _ (hcached a ha) hb')
    exact ⟨hclass, Actor.element_perm (hlinked a ha) (hlinked b hb) hin hout⟩
  · rw [List.forall₂_map_right_iff]
    exact hall.imp fun _ _ hce => hce.2

/-! ### Keys -/

theorem words_injective {u v : List Char} {ws vs : List (List Char)} (hu : ';' ∉ u) (hv : ';' ∉ v)
    (hws : ∀ w ∈ ws, ';' ∉ w) (hvs : ∀ w ∈ vs, ';' ∉ w)
    (h : u ++ ws.flatMap (';' :: ·) = v ++ vs.flatMap (';' :: ·)) : u = v ∧ ws = vs := by
  induction ws generalizing u v vs with
  | nil =>
    cases vs with
    | nil => exact ⟨by simpa using h, rfl⟩
    | cons w vs =>
      refine absurd ?_ hu
      rw [show u = u ++ [].flatMap (';' :: ·) by simp, h]
      simp
  | cons w ws ih =>
    cases vs with
    | nil =>
      refine absurd ?_ hv
      rw [show v = v ++ [].flatMap (';' :: ·) by simp, ← h]
      simp
    | cons w' vs =>
      simp only [List.flatMap_cons, List.cons_append] at h
      obtain ⟨huv, hrest⟩ := SNG.append_separator_inj hu hv h
      obtain ⟨hw, hl⟩ := ih (hws w (by simp)) (hvs w' (by simp)) (fun x hx => hws x (by simp [hx]))
        (fun x hx => hvs x (by simp [hx])) hrest
      exact ⟨huv, by rw [hw, hl]⟩

theorem marks_differ (m n : String) : m.toList ++ "[IN]".toList ≠ n.toList ++ "[OUT]".toList := by
  intro h
  have hrev := congrArg List.reverse h
  simp at hrev

theorem marked_injective {ins ins' outs outs' : List String}
    (h : ins.map (fun n => n.toList ++ "[IN]".toList) ++ outs.map (fun n => n.toList ++ "[OUT]".toList) =
      ins'.map (fun n => n.toList ++ "[IN]".toList) ++ outs'.map (fun n => n.toList ++ "[OUT]".toList)) :
    ins = ins' ∧ outs = outs' := by
  have hin : Function.Injective fun n : String => n.toList ++ "[IN]".toList := by
    intro m n hmn
    exact String.toList_inj.mp (List.append_cancel_right hmn)
  have hout : Function.Injective fun n : String => n.toList ++ "[OUT]".toList := by
    intro m n hmn
    exact String.toList_inj.mp (List.append_cancel_right hmn)
  induction ins generalizing ins' with
  | nil =>
    cases ins' with
    | nil => exact ⟨rfl, hout.list_map (by simpa using h)⟩
    | cons n ins' =>
      cases outs with
      | nil => simp at h
      | cons o outs =>
        simp only [List.map_nil, List.nil_append, List.map_cons, List.cons_append, List.cons.injEq] at h
        exact absurd h.1.symm (marks_differ n o)
  | cons m ins ih =>
    cases ins' with
    | nil =>
      cases outs' with
      | nil => simp at h
      | cons o outs' =>
        simp only [List.map_nil, List.nil_append, List.map_cons, List.cons_append, List.cons.injEq] at h
        exact absurd h.1 (marks_differ m o)
    | cons n ins' =>
      simp only [List.map_cons, List.cons_append, List.cons.injEq] at h
      obtain ⟨hl, hr⟩ := ih h.2
      exact ⟨by rw [hin h.1, hl], hr⟩

theorem key_words (a : Actor) : a.key.toList = a.className.toList ++
    ((a.names true).map (fun n => n.toList ++ "[IN]".toList) ++
      (a.names false).map fun n => n.toList ++ "[OUT]".toList).flatMap (';' :: ·) := by
  have hjoin (l : List String) (mark : String) : (String.join (l.map (";" ++ · ++ mark))).toList =
      (l.map fun n => n.toList ++ mark.toList).flatMap (';' :: ·) := by
    induction l with
    | nil => rfl
    | cons n l ih =>
      rw [List.map_cons, String.join_cons, String.toList_append, ih]
      simp
  simp only [Actor.key, actorTypeKey, String.toList_append, hjoin, List.flatMap_append, List.append_assoc]

/-- Keys tell all where no class and no port has a semicolon in its name. -/
theorem keysTell_of_plain {g : GraphBase} (hlinked : ∀ a ∈ g.actors, a.Linked)
    (hclass : ∀ a ∈ g.actors, ';' ∉ a.className.toList) (hports : ∀ p ∈ leafPorts g.actors, ';' ∉ p.name.toList) :
    g.KeysTell := by
  have hname : ∀ a ∈ g.actors, ∀ d, ∀ n ∈ a.names d, ';' ∉ n.toList := by
    intro a ha d n hn hmem
    rw [Actor.names, List.mem_insertionSort] at hn
    obtain ⟨p, hp, hleaf⟩ := List.mem_filterMap.mp hn
    have hpa := List.mem_of_mem_filter hp
    obtain ⟨port, -, -, hport, -, hkey⟩ := flummyPort_child ((hlinked a ha).named p hpa)
    rw [hport, Option.some.injEq] at hleaf
    refine hports p (mem_leafPorts.mpr ⟨a, ha, hpa⟩) ?_
    rw [← hkey, FlummyPort.key, String.toList_append, hleaf]
    exact List.mem_append_right _ hmem
  have hwords : ∀ a ∈ g.actors, ∀ w ∈ (a.names true).map (fun n => n.toList ++ "[IN]".toList) ++
      (a.names false).map (fun n => n.toList ++ "[OUT]".toList), ';' ∉ w := by
    intro a ha w hw hmem
    obtain hw | hw := List.mem_append.mp hw
    · obtain ⟨n, hn, rfl⟩ := List.mem_map.mp hw
      obtain hmem | hmem := List.mem_append.mp hmem
      · exact hname a ha true n hn hmem
      · exact absurd hmem (by decide)
    · obtain ⟨n, hn, rfl⟩ := List.mem_map.mp hw
      obtain hmem | hmem := List.mem_append.mp hmem
      · exact hname a ha false n hn hmem
      · exact absurd hmem (by decide)
  intro a ha b hb hkey
  have hchars := congrArg String.toList hkey
  rw [key_words, key_words] at hchars
  obtain ⟨hclasses, hnames⟩ := words_injective (hclass a ha) (hclass b hb) (hwords a ha) (hwords b hb) hchars
  exact ⟨String.toList_inj.mp hclasses, marked_injective hnames⟩

theorem GraphBase.Ok.actors_linked {g : GraphBase} (h : g.Ok) {a : Actor} (ha : a ∈ g.actors) : a.Linked := by
  obtain ⟨m, hm, ham⟩ := mem_actorsOf.mp ha
  exact (h.modules m hm).actors_linked a ham

theorem dumpSNG_reached {pool : List String → String → String} {g : GraphBase} (hpool : NamePool pool) (hok : g.Ok)
    (hreserved : g.Unreserved) (hbacked : g.Backed) (honce : BoundOnce g.actors g.allChans) :
    ∃ ctx, Reached g.actors g.actors g.allChans ctx ∧ dumpSNG pool g = some ⟨ctx.actorTypes.map Prod.snd,
      ctx.actorInstances.map Prod.snd, ctx.channelInstances.map Prod.snd⟩ := by
  have hempty : Reached g.actors [] [] ⟨[], [], [], [], []⟩ :=
    ⟨⟨List.Perm.nil, by simp, by simp, by simp, by simp, List.nodup_nil⟩, [], List.Perm.nil, .nil⟩
  have hparents : g.ports.filterMap (·.parent) = [] := List.filterMap_eq_nil_iff.mpr hok.top
  obtain ⟨ctx₁, hinner, hr₁⟩ := dumpModules_spec hok.distinct hok.modules
    (fun m hm => dumpModule_spec hpool hok.distinct honce (hok.modules m hm)) .empty hempty
    (List.prefix_refl _) (List.prefix_append _ _) (by simpa [Expected.empty] using hok.graph.parents)
    (fun _ _ _ _ => rfl) hreserved (fun p hp => hbacked p (List.mem_append_left _ hp))
  obtain ⟨ctx₂, hclose, hr₂⟩ := closeGraph_spec hok.distinct honce hok.modules hok.graph .empty hr₁
    (List.prefix_refl _) (List.prefix_refl _) (by rw [hparents]; exact List.nodup_nil)
    (fun p hp => hbacked p (List.mem_append_right _ hp))
  simp only [Expected.empty, List.nil_append, Option.none_or] at hinner hclose
  refine ⟨ctx₂, hr₂, ?_⟩
  unfold dumpSNG
  simp only [Expected.empty, hinner, hclose, Option.bind_eq_bind, Option.bind_some]
  rfl

/-- The dump of a hierarchy succeeds and describes it. -/
theorem dump_describes (pool : List String → String → String) (hpool : NamePool pool) (g : GraphBase) (hok : g.Ok)
    (hreserved : g.Unreserved) (hbacked : g.Backed) (honce : BoundOnce g.actors g.allChans) (hkeys : g.KeysTell) :
    ∃ doc, dumpSNG pool g = some doc ∧ g.Describes doc := by
  obtain ⟨ctx, hr, hdump⟩ := dumpSNG_reached hpool hok hreserved hbacked honce
  exact ⟨_, hdump, hr.describes (fun a ha => hok.actors_linked ha) hkeys⟩

/-! ### Runs on fixed hierarchies -/

instance (a : Actor) : Decidable a.Linked :=
  decidable_of_iff (a.className ≠ "" ∧ (∀ p ∈ a.ports, IsChildName a.name p.name) ∧ (∀ p ∈ a.ports, p.child = none) ∧
    (a.ports.map (·.address)).Nodup) ⟨fun h => ⟨h.1, h.2.1, h.2.2.1, h.2.2.2⟩, fun h => ⟨h.1, h.2, h.3, h.4⟩⟩

instance (p : Port) (c : Chan) : Decidable (p.BoundTo c) := inferInstanceAs (Decidable (∃ i ∈ p.interfaces, i ∈ c.interfaces))

instance (g : GraphBase) : Decidable g.Unreserved := inferInstanceAs (Decidable (∀ n ∈ namesOf g.modules, reserved n = false))

instance (g : GraphBase) : Decidable g.Backed := inferInstanceAs (Decidable
    (∀ p ∈ graphPortsOf g.modules ++ g.ports, p.child ≠ none))

instance (g : GraphBase) : Decidable g.KeysTell := inferInstanceAs (Decidable (∀ a ∈ g.actors, ∀ b ∈ g.actors, a.key = b.key →
    a.className = b.className ∧ a.names true = b.names true ∧ a.names false = b.names false))

instance (all : List Actor) (cs : List Chan) : Decidable (BoundOnce all cs) :=
    inferInstanceAs (Decidable (∀ p ∈ leafPorts all, p.interfaces.Nodup ∧
    ∀ c ∈ cs, ∀ i ∈ p.interfaces, ∀ j ∈ p.interfaces, i ∈ c.interfaces → j ∈ c.interfaces → i = j))

theorem uniquePool_names : NamePool SNG.uniquePool := by
  refine ⟨SNG.uniquePool_ok.fresh, ?_⟩
  intro used s hs
  unfold SNG.uniquePool
  by_cases hmem : s ∈ used
  · rw [if_pos hmem]
    intro heq
    exact hs (String.append_eq_empty_iff.mp heq).1
  · rwa [if_neg hmem]

def inputActor (name className : String) (ports : List (Nat × String × Nat)) : Actor :=
  ⟨name, className, ports.map fun p => ⟨p.1, p.2.1, .input p.2.2, none, none⟩⟩

def nested : GraphBase :=
  ⟨"top", [.graph "top.sub" [.actor ⟨"top.sub.src", "Src", [⟨1, "top.sub.src.o", .output [10, 20], some 3, none⟩]⟩] []
      [⟨3, "top.sub.o", .output [10, 20], none, some 1⟩],
      .actor (inputActor "top.a" "Snk" [(5, "top.a.i", 11)]), .actor (inputActor "top.b" "Snk" [(6, "top.b.i", 21)])],
    [⟨.fifo 2 0, "top.f", 4, [10], [11]⟩, ⟨.register, "top.r", 4, [20], [21]⟩], []⟩

theorem nested_ok : nested.Ok := by
  refine ⟨?_, ?_, by decide, ⟨by decide, by decide, by decide, by decide, by decide⟩⟩
  · intro m hm
    simp only [nested, List.mem_cons, List.not_mem_nil, or_false] at hm
    obtain rfl | rfl | rfl := hm
    · refine .graph ?_ ⟨by decide +kernel, by decide, by decide, by decide, by decide, by decide⟩
      intro m hm
      rw [List.mem_singleton.mp hm]
      exact .actor (by decide +kernel)
    · exact .actor (by decide +kernel)
    · exact .actor (by decide +kernel)
  · exact ⟨by decide, by decide, by decide, by decide, by decide, by decide⟩

theorem dump_describes_nested : ∃ doc, dumpSNG SNG.uniquePool nested = some doc ∧ nested.Describes doc :=
  dump_describes SNG.uniquePool uniquePool_names nested nested_ok (by decide +kernel) (by decide +kernel) (by decide +kernel)
    (by decide +kernel)

def flat (as : List Actor) (cs : List Chan) : GraphBase := ⟨"t", as.map .actor, cs, []⟩

theorem flat_ok {as : List Actor} {cs : List Chan} (hlinked : ∀ a ∈ as, a.Linked)
    (hparents : ∀ a ∈ as, ∀ p ∈ a.ports, p.parent = none) (hkinds : ∀ c ∈ cs, c.kind ≠ .other)
    (hdistinct : Distinct (flat as cs).actors (flat as cs).allChans) : (flat as cs).Ok := by
  have hnone : parentsOf (as.map .actor) = [] := by
    refine List.flatMap_eq_nil_iff.mpr fun m hm => ?_
    obtain ⟨a, ha, rfl⟩ := List.mem_map.mp hm
    exact List.filterMap_eq_nil_iff.mpr (hparents a ha)
  refine ⟨?_, ⟨?_, List.nodup_nil, ?_, ?_, hkinds, ?_⟩, ?_, hdistinct⟩
  · intro m hm
    obtain ⟨a, ha, rfl⟩ := List.mem_map.mp hm
    exact .actor (hlinked a ha)
  · intro p hp
    cases hp
  · rw [show (flat as cs).modules = as.map .actor from rfl, hnone]
    exact List.nodup_nil
  · rw [show (flat as cs).modules = as.map .actor from rfl, hnone]
    intro q hq
    cases hq
  · intro c hc a ha hbound
    exact ha
  · intro p hp
    cases hp

def outputActor (name : String) (interfaces : List Nat) : Actor :=
  ⟨name, "Src", [⟨1, name ++ ".o", .output interfaces, none, none⟩]⟩

def boundTwice : GraphBase := flat [outputActor "t.a" [10, 10]] [⟨.register, "t.r", 4, [10], []⟩]

/-- A port of an inner graph is bound to the register, but no port of a module is bound to it. -/
def unbacked : GraphBase :=
  ⟨"t", [.graph "t.sub" [] [] [⟨1, "t.sub.o", .output [10], none, none⟩]], [⟨.register, "t.r", 4, [10], []⟩], []⟩

/-- An actor with the name of an internal module. -/
def internalName : GraphBase := flat [outputActor "t.__smoc_a" [10]] [⟨.register, "t.r", 4, [10], []⟩]

/-- One port called `x[IN];y` against two ports `x` and `y`. -/
def sameKey : GraphBase :=
  flat [inputActor "t.a" "C" [(1, "t.a.x[IN];y", 11)], inputActor "t.b" "C" [(2, "t.b.x", 12), (3, "t.b.y", 13)]]
    [⟨.register, "t.r", 4, [], [11, 12, 13]⟩]

theorem boundTwice_ok : boundTwice.Ok :=
  flat_ok (by decide +kernel) (by decide) (by decide) ⟨by decide, by decide, by decide, by decide, by decide⟩

theorem internalName_ok : internalName.Ok :=
  flat_ok (by decide +kernel) (by decide) (by decide) ⟨by decide, by decide, by decide, by decide, by decide⟩

theorem sameKey_ok : sameKey.Ok :=
  flat_ok (by decide +kernel) (by decide) (by decide) ⟨by decide, by decide, by decide, by decide, by decide⟩

theorem unbacked_ok : unbacked.Ok := by
  refine ⟨?_, ⟨by decide, by decide, by decide, by decide, by decide, by decide⟩, by decide,
    ⟨by decide, by decide, by decide, by decide, by decide⟩⟩
  intro m hm
  rw [List.mem_singleton.mp hm]
  refine .graph ?_ ⟨by decide +kernel, by decide, by decide, by decide, by decide, by decide⟩
  intro m hm
  cases hm

/-- Each condition is needed: the dump of a hierarchy without it fails or does not describe the hierarchy. -/
theorem dump_unfaithful :
    (boundTwice.Ok ∧ boundTwice.Unreserved ∧ boundTwice.Backed ∧ boundTwice.KeysTell ∧
      dumpSNG SNG.uniquePool boundTwice = none) ∧
    (internalName.Ok ∧ internalName.Backed ∧ BoundOnce internalName.actors internalName.allChans ∧ internalName.KeysTell ∧
      ∃ doc, dumpSNG SNG.uniquePool internalName = some doc ∧ ¬ internalName.Describes doc) ∧
    (unbacked.Ok ∧ unbacked.Unreserved ∧ BoundOnce unbacked.actors unbacked.allChans ∧ unbacked.KeysTell ∧
      ∃ doc, dumpSNG SNG.uniquePool unbacked = some doc ∧ ¬ unbacked.Describes doc) ∧
    (sameKey.Ok ∧ sameKey.Unreserved ∧ sameKey.Backed ∧ BoundOnce sameKey.actors sameKey.allChans ∧
      ∃ doc, dumpSNG SNG.uniquePool sameKey = some doc ∧ ¬ sameKey.Describes doc) := by
  have hinternal : (dumpSNG SNG.uniquePool internalName).map (·.actorInstances) = some [] := by decide +kernel
  have hunbacked : (dumpSNG SNG.uniquePool unbacked).map (·.channels.flatMap (·.sources)) = some [⟨some "t.sub", some "o"⟩] := by
    decide +kernel
  have hsame : (dumpSNG SNG.uniquePool sameKey).map (·.actorInstances) =
      some [⟨some "t.a", some "C"⟩, ⟨some "t.b", some "C"⟩] := by decide +kernel
  obtain ⟨doc, hdoc, hinst⟩ := Option.map_eq_some_iff.mp hinternal
  obtain ⟨doc', hdoc', hinst'⟩ := Option.map_eq_some_iff.mp hsame
  obtain ⟨doc'', hdoc'', hsources⟩ := Option.map_eq_some_iff.mp hunbacked
  refine ⟨⟨boundTwice_ok, by decide +kernel, by decide +kernel, by decide +kernel, by decide +kernel⟩,
    ⟨internalName_ok, by decide +kernel, by decide +kernel, by decide +kernel, doc, hdoc, ?_⟩,
    ⟨unbacked_ok, by decide +kernel, by decide +kernel, by decide +kernel, doc'', hdoc'', ?_⟩,
    ⟨sameKey_ok, by decide +kernel, by decide +kernel, by decide +kernel, doc', hdoc', ?_⟩⟩
  · intro h
    obtain ⟨typeOf, es, hperm, -⟩ := h
    rw [hinst] at hperm
    exact absurd hperm.symm.eq_nil (List.cons_ne_nil _ _)
  · intro h
    obtain ⟨typeOf, es, -, -, -, -, hperm, hall⟩ := h
    have hmem : (⟨some "t.sub", some "o"⟩ : ActorPortRef) ∈ doc''.channels.flatMap (·.sources) := by simp [hsources]
    obtain ⟨e, he, href⟩ := List.mem_flatMap.mp hmem
    obtain ⟨c, -, hdescribes⟩ := (Pointwise.forall₂_mem hall).2 e (hperm.subset he)
    obtain ⟨a, ha, -⟩ := (hdescribes.sources.2 _).mp href
    cases ha
  · intro h
    obtain ⟨typeOf, es, hperm, -, -, hshared, -⟩ := h
    rw [hinst'] at hperm
    have htype : ∀ a ∈ sameKey.actors, typeOf a = "C" := by
      intro a ha
      have hmem := hperm.mem_iff.mpr (List.mem_map_of_mem (f := fun a : Actor =>
        (⟨some a.name, some (typeOf a)⟩ : ActorInstanceElement)) ha)
      simp only [List.mem_cons, ActorInstanceElement.mk.injEq, Option.some.injEq, List.not_mem_nil, or_false] at hmem
      obtain h | h := hmem
      · exact h.2
      · exact h.2
    have ha : inputActor "t.a" "C" [(1, "t.a.x[IN];y", 11)] ∈ sameKey.actors := by decide
    have hb : inputActor "t.b" "C" [(2, "t.b.x", 12), (3, "t.b.y", 13)] ∈ sameKey.actors := by decide
    have hports := (hshared _ ha _ hb ((htype _ ha).trans (htype _ hb).symm)).2
    exact absurd hports.length_eq (by decide)

end SysteMoC.Dumper
