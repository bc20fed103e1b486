import Mathlib.Data.List.Nodup
import Mathlib.Data.List.TakeWhile
import SysteMoC.SngDumper

/-!
# What dumping a port, a channel and an actor does

Equations for the steps of the dump, under the conditions that make their assertions hold.
-/

namespace SysteMoC.Dumper

open SNG (ActorTypeElement ActorInstanceElement ActorPortRef ChannelElement PortElement)

/-! ## Names -/

/-- The name of a child object: the parent's name, a point and a leaf without points. -/
def IsChildName (owner name : String) : Prop := owner ≠ "" ∧ ∃ leaf : String, '.' ∉ leaf.toList ∧ name = owner ++ "." ++ leaf

theorem splitName_child {owner leaf : String} (ho : owner ≠ "") (hl : '.' ∉ leaf.toList) :
    splitName (owner ++ "." ++ leaf) = some (owner, leaf) := by
  have hrev : (owner ++ "." ++ leaf).toList.reverse = leaf.toList.reverse ++ '.' :: owner.toList.reverse := by simp
  have hall : ∀ c ∈ leaf.toList.reverse, decide (c ≠ '.') = true := by
    intro c hc
    simp only [ne_eq, decide_not, Bool.not_eq_eq_eq_not, Bool.not_true, decide_eq_false_iff_not]
    intro heq
    exact hl (heq ▸ List.mem_reverse.mp hc)
  have hne : owner.toList.reverse ≠ [] := by simpa using ho
  unfold splitName
  rw [hrev, List.dropWhile_append_of_pos hall, List.takeWhile_append_of_pos hall]
  obtain ⟨c, cs, hcs⟩ := List.exists_cons_of_ne_nil hne
  have howner : owner.toList = cs.reverse ++ [c] := by
    rw [← List.reverse_reverse owner.toList, hcs, List.reverse_cons]
  simp [hcs, ← howner]

theorem splitName_eq_some {name owner leaf : String} (h : splitName name = some (owner, leaf)) :
    IsChildName owner name := by
  have hsplit : name.toList.reverse = name.toList.reverse.takeWhile (· ≠ '.') ++ name.toList.reverse.dropWhile (· ≠ '.') :=
    List.takeWhile_append_dropWhile.symm
  unfold splitName at h
  split at h
  · rename_i d c cs hdrop
    simp only [Option.some.injEq, Prod.mk.injEq] at h
    obtain ⟨rfl, rfl⟩ := h
    have hd : d = '.' := by
      have hhead := List.head_dropWhile_not (fun c : Char => decide (c ≠ '.')) (by rw [hdrop]; exact List.cons_ne_nil _ _)
      simp only [hdrop, List.head_cons, ne_eq, decide_eq_false_iff_not, not_not] at hhead
      exact hhead
    refine ⟨?_, String.ofList (name.toList.reverse.takeWhile (· ≠ '.')).reverse, ?_, ?_⟩
    · simp
    · rw [String.toList_ofList, List.mem_reverse]
      intro hmem
      have hne := List.mem_takeWhile_imp hmem
      simp at hne
    · rw [hdrop, hd] at hsplit
      rw [← String.toList_inj]
      have hname := congrArg List.reverse hsplit
      rw [List.reverse_reverse] at hname
      simpa using hname
  · cases h

theorem isChildName_iff {name owner : String} : IsChildName owner name ↔ (splitName name).map Prod.fst = some owner := by
  refine ⟨?_, ?_⟩
  · intro h
    obtain ⟨ho, leaf, hl, rfl⟩ := h
    rw [splitName_child ho hl]
    rfl
  · intro h
    obtain ⟨⟨o, leaf⟩, hsplit, rfl⟩ := Option.map_eq_some_iff.mp h
    exact splitName_eq_some hsplit

instance (owner name : String) : Decidable (IsChildName owner name) := decidable_of_iff _ isChildName_iff.symm

def leafName (p : Port) : Option String := (splitName p.name).map Prod.snd

/-- A reference to the port `p` of the actor `a`. -/
def Port.ref (a : Actor) (p : Port) : ActorPortRef := ⟨some a.name, leafName p⟩

def Port.element (p : Port) : PortElement := ⟨leafName p, some (if p.isInput then "in" else "out")⟩

theorem flummyPort_child {owner : String} {p : Port} (h : IsChildName owner p.name) :
    ∃ port, flummyPort p = some port ∧ port.actorName = owner ∧ leafName p = some port.portName ∧
      port.isInput = p.isInput ∧ port.key = p.name := by
  obtain ⟨ho, leaf, hl, hname⟩ := h
  have hsplit := splitName_child ho hl
  rw [← hname] at hsplit
  refine ⟨⟨owner, leaf, p.isInput⟩, ?_, rfl, ?_, rfl, hname.symm⟩
  · simp [flummyPort, hsplit]
  · simp [leafName, hsplit]

/-! ## Ports -/

theorem connect_run {port : FlummyPort} {is : List Interface} (hn : is.Nodup) (e : Expected)
    (hfree : ∀ i ∈ is, e.conns i = none) :
    is.foldlM (Expected.connect port) e = some { e with conns := fun i => if i ∈ is then some port else e.conns i } := by
  induction is generalizing e with
  | nil => simp
  | cons j is ih =>
    rw [List.nodup_cons] at hn
    have hj : e.conns j = none := hfree j (by simp)
    have hstep : Expected.connect port e j = some { e with conns := Function.update e.conns j (some port) } := by
      simp [Expected.connect, hj]
    have hrest : ∀ i ∈ is, Function.update e.conns j (some port) i = none := by
      intro i hi
      have hne : i ≠ j := by
        intro heq
        exact hn.1 (heq ▸ hi)
      rw [Function.update_of_ne hne]
      exact hfree i (by simp [hi])
    rw [List.foldlM_cons, hstep]
    refine (ih hn.2 _ hrest).trans ?_
    congr 2
    funext i
    by_cases hi : i = j
    · simp [hi, hn.1]
    · simp [hi]

def Port.waits (p : Port) (i : Interface) : Option FlummyPort :=
  if p.child = none ∧ i ∈ p.interfaces then flummyPort p else none

def waiting (ps : List Port) (i : Interface) : Option FlummyPort := ps.findSome? (·.waits i)

theorem waiting_append (ps qs : List Port) (i : Interface) :
    waiting (ps ++ qs) i = (waiting ps i).or (waiting qs i) := by
  simp [waiting, List.findSome?_append]

theorem waiting_some {ps : List Port} {i : Interface} {port : FlummyPort} (h : waiting ps i = some port) :
    ∃ p ∈ ps, p.child = none ∧ i ∈ p.interfaces ∧ flummyPort p = some port := by
  obtain ⟨p, hp, hw⟩ := List.exists_of_findSome?_eq_some h
  unfold Port.waits at hw
  split at hw
  · rename_i hc
    exact ⟨p, hp, hc.1, hc.2, hw⟩
  · cases hw

theorem waiting_none {ps : List Port} {i : Interface} (h : ∀ p ∈ ps, p.child = none → i ∉ p.interfaces) :
    waiting ps i = none := by
  refine List.findSome?_eq_none_iff.mpr fun p hp => ?_
  unfold Port.waits
  rw [if_neg]
  intro hc
  exact h p hp hc.1 hc.2

/-- What `dumpPort` asserts about a port, with `port` for its name and `v` for the visitor. -/
structure PortFits (v : Visitor) (p : Port) (port : FlummyPort) : Prop where
  name : flummyPort p = some port
  address : p.address ∉ v.ports.map Prod.fst
  once : p.child = none → p.interfaces.Nodup
  free : p.child = none → ∀ i ∈ p.interfaces, v.epc.conns i = none
  parent : ∀ q, p.parent = some q → q ∉ v.epc.outer

theorem dumpPort_eq {v : Visitor} {p : Port} {port : FlummyPort} (h : PortFits v p port) :
    dumpPort v p = some ⟨{ v.own with outer := v.own.outer.erase p.address },
      ⟨v.epc.outer ++ p.parent.toList, fun i => (v.epc.conns i).or (p.waits i)⟩, v.ports ++ [(p.address, port)]⟩ := by
  have hadd : v.addPort p.address port = some { v with ports := v.ports ++ [(p.address, port)] } := if_neg h.address
  have hconn : connectPort v.epc p port = some { v.epc with conns := fun i => (v.epc.conns i).or (p.waits i) } := by
    unfold connectPort
    cases hc : p.child with
    | some q => simp [Port.waits, hc]
    | none =>
      dsimp only
      rw [connect_run (h.once hc) _ (h.free hc)]
      congr 2
      funext i
      by_cases hi : i ∈ p.interfaces
      · simp [Port.waits, hc, hi, h.free hc i hi, h.name]
      · simp [Port.waits, hc, hi]
  have hforward : forwardPort { v.epc with conns := fun i => (v.epc.conns i).or (p.waits i) } p =
      some ⟨v.epc.outer ++ p.parent.toList, fun i => (v.epc.conns i).or (p.waits i)⟩ := by
    unfold forwardPort
    cases hq : p.parent with
    | none => simp
    | some q => simp [h.parent q hq]
  unfold dumpPort
  simp only [h.name, hadd, hconn, hforward, Option.bind_eq_bind, Option.bind_some]
  rfl

def visited (ps : List Port) : List (Nat × FlummyPort) :=
  ps.filterMap fun p => (flummyPort p).map fun port => (p.address, port)

/-- `PortFits` for the ports of one module. -/
structure PortsFit (v : Visitor) (ps : List Port) : Prop where
  name : ∀ p ∈ ps, (flummyPort p).isSome
  address : (v.ports.map Prod.fst ++ ps.map (·.address)).Nodup
  once : ∀ p ∈ ps, p.child = none → p.interfaces.Nodup
  apart : ps.Pairwise fun p q => p.child = none → ∀ i ∈ p.interfaces, i ∉ q.interfaces
  free : ∀ p ∈ ps, p.child = none → ∀ i ∈ p.interfaces, v.epc.conns i = none
  parent : (v.epc.outer ++ ps.filterMap (·.parent)).Nodup

theorem dumpPorts_eq {v : Visitor} {ps : List Port} (h : PortsFit v ps) :
    ps.foldlM dumpPort v = some ⟨{ v.own with outer := v.own.outer.diff (ps.map (·.address)) },
      ⟨v.epc.outer ++ ps.filterMap (·.parent), fun i => (v.epc.conns i).or (waiting ps i)⟩, v.ports ++ visited ps⟩ := by
  induction ps generalizing v with
  | nil => simp [waiting, visited]
  | cons p ps ih =>
    obtain ⟨port, hport⟩ := Option.isSome_iff_exists.mp (h.name p (by simp))
    have haddr := h.address
    have hpar := h.parent
    have hapart := List.pairwise_cons.mp h.apart
    have hfits : PortFits v p port := by
      refine ⟨hport, ?_, h.once p (by simp), h.free p (by simp), ?_⟩
      · intro hmem
        exact (List.disjoint_of_nodup_append haddr) hmem (by simp)
      · intro q hq hmem
        exact (List.disjoint_of_nodup_append hpar) hmem (by simp [hq])
    have hparents : (p :: ps).filterMap (·.parent) = p.parent.toList ++ ps.filterMap (·.parent) := by
      cases hq : p.parent <;> simp [hq]
    rw [hparents] at hpar
    rw [List.foldlM_cons, dumpPort_eq hfits]
    refine (ih ⟨?_, ?_, ?_, hapart.2, ?_, ?_⟩).trans ?_
    · intro q hq
      exact h.name q (by simp [hq])
    · simpa using haddr
    · intro q hq
      exact h.once q (by simp [hq])
    · intro q hq hc i hi
      have hw : p.waits i = none := by
        unfold Port.waits
        rw [if_neg]
        intro hp
        exact hapart.1 q hq hp.1 i hp.2 hi
      simp [hw, h.free q (by simp [hq]) hc i hi]
    · simpa using hpar
    · have hvisited : visited (p :: ps) = (p.address, port) :: visited ps := by simp [visited, hport]
      simp only [hparents, hvisited, List.map_cons, List.diff_cons, List.append_assoc, List.singleton_append, Option.or_assoc]
      congr 3
      funext i
      cases hw : p.waits i <;> simp [waiting, hw]

/-! ## Channels -/

theorem insertOnce_spec {V : Type} {m : List (String × V)} {k : String} (v : V) (h : k ∉ m.map Prod.fst) :
    ∃ m', insertOnce m k v = some m' ∧ m'.Perm ((k, v) :: m) :=
  ⟨_, if_neg h, List.perm_orderedInsert _ _ _⟩

theorem takePorts_spec {is : List Interface} (hn : is.Nodup) (s : Ends)
    (hkeys : ((is.filterMap s.conns).map FlummyPort.key ++ s.ports.map Prod.fst).Nodup) :
    ∃ ports, is.foldlM takePort s = some ⟨fun i => if i ∈ is then none else s.conns i, ports⟩ ∧
      ports.Perm ((is.filterMap s.conns).map (fun p => (p.key, p)) ++ s.ports) := by
  induction is generalizing s with
  | nil => exact ⟨s.ports, by simp, by simp⟩
  | cons j is ih =>
    rw [List.nodup_cons] at hn
    cases hj : s.conns j with
    | none =>
      have hstep : takePort s j = some s := by simp [takePort, hj]
      rw [List.filterMap_cons_none hj] at hkeys
      obtain ⟨ports, hrun, hports⟩ := ih hn.2 s hkeys
      refine ⟨ports, ?_, ?_⟩
      · rw [List.foldlM_cons, hstep]
        refine hrun.trans ?_
        congr 2
        funext i
        by_cases hi : i = j
        · simp [hi, hj]
        · simp [hi]
      · rwa [List.filterMap_cons_none hj]
    | some port =>
      rw [List.filterMap_cons_some hj, List.map_cons, List.cons_append, List.nodup_cons] at hkeys
      have hfresh : port.key ∉ s.ports.map Prod.fst := by
        intro hmem
        exact hkeys.1 (List.mem_append_right _ hmem)
      obtain ⟨m, hm, hperm⟩ := insertOnce_spec port hfresh
      have hstep : takePort s j = some ⟨Function.update s.conns j none, m⟩ := by simp [takePort, hj, hm]
      have hsame : is.filterMap (Function.update s.conns j none) = is.filterMap s.conns := by
        refine List.filterMap_congr fun i hi => ?_
        rw [Function.update_of_ne]
        intro heq
        exact hn.1 (heq ▸ hi)
      have hmkeys : (m.map Prod.fst).Perm (port.key :: s.ports.map Prod.fst) := hperm.map Prod.fst
      obtain ⟨ports, hrun, hports⟩ := ih hn.2 ⟨Function.update s.conns j none, m⟩ (by
        simp only [hsame]
        have hswap := (List.Perm.append_left ((is.filterMap s.conns).map FlummyPort.key) hmkeys).trans List.perm_middle
        exact hswap.nodup_iff.mpr (List.nodup_cons.mpr hkeys))
      refine ⟨ports, ?_, ?_⟩
      · rw [List.foldlM_cons, hstep]
        refine hrun.trans ?_
        congr 2
        funext i
        by_cases hi : i = j
        · simp [hi, hn.1]
        · simp [hi]
      · simp only [hsame] at hports
        rw [List.filterMap_cons_some hj, List.map_cons, List.cons_append]
        exact hports.trans ((List.Perm.append_left _ hperm).trans List.perm_middle)

/-- The expected connections at the interfaces of `c` have different ports at its entries, and at its outlets. -/
structure EndsFit (conns : Interface → Option FlummyPort) (c : Chan) : Prop where
  interfaces : c.interfaces.Nodup
  entries : (((c.entries.map Interface.entry).filterMap conns).map FlummyPort.key).Nodup
  outlets : (((c.outlets.map Interface.outlet).filterMap conns).map FlummyPort.key).Nodup

theorem refs_perm {ports : List (String × FlummyPort)} {l : List FlummyPort}
    (h : ports.Perm (l.map (fun p => (p.key, p)) ++ [])) : (ports.map (·.2.ref)).Perm (l.map FlummyPort.ref) := by
  have hmap := h.map (·.2.ref)
  simpa [Function.comp_def] using hmap

theorem dumpConnections_spec (element : List ActorPortRef → List ActorPortRef → ChannelElement)
    {s : SNGDumpCTX × Expected} {c : Chan} (h : EndsFit s.2.conns c) (hname : c.name ∉ s.1.channelInstances.map Prod.fst) :
    ∃ sources targets m, dumpConnections element s c = some ({ s.1 with channelInstances := m },
        { s.2 with conns := fun i => if i ∈ c.interfaces then none else s.2.conns i }) ∧
      m.Perm ((c.name, element sources targets) :: s.1.channelInstances) ∧
      sources.Perm (((c.entries.map Interface.entry).filterMap s.2.conns).map FlummyPort.ref) ∧
      targets.Perm (((c.outlets.map Interface.outlet).filterMap s.2.conns).map FlummyPort.ref) := by
  have hparts := List.nodup_append'.mp h.interfaces
  obtain ⟨sources, hsources, hsperm⟩ := takePorts_spec hparts.1 ⟨s.2.conns, []⟩ (by simpa using h.entries)
  have hsame : (c.outlets.map Interface.outlet).filterMap
      (fun i => if i ∈ c.entries.map Interface.entry then none else s.2.conns i) =
      (c.outlets.map Interface.outlet).filterMap s.2.conns := by
    refine List.filterMap_congr fun i hi => if_neg fun hmem => ?_
    exact hparts.2.2 hmem hi
  obtain ⟨targets, htargets, htperm⟩ := takePorts_spec hparts.2.1
    ⟨fun i => if i ∈ c.entries.map Interface.entry then none else s.2.conns i, []⟩ (by simpa [hsame] using h.outlets)
  obtain ⟨m, hm, hmperm⟩ := insertOnce_spec
    (element (sources.map (·.2.ref)) (targets.map (·.2.ref))) hname
  simp only [hsame] at htperm
  refine ⟨sources.map (·.2.ref), targets.map (·.2.ref), m, ?_, hmperm, refs_perm hsperm, refs_perm htperm⟩
  unfold dumpConnections
  simp only [hsources, htargets, hm, Option.bind_eq_bind, Option.bind_some]
  refine congrArg some (Prod.ext rfl ?_)
  dsimp only
  congr 1
  funext i
  by_cases he : i ∈ c.entries.map Interface.entry
  · simp [Chan.interfaces, he]
  · by_cases ho : i ∈ c.outlets.map Interface.outlet
    · simp [Chan.interfaces, ho]
    · simp [Chan.interfaces, he, ho]

/-! ## Actors -/

def Actor.names (a : Actor) (isInput : Bool) : List String :=
  ((a.ports.filter (·.isInput == isInput)).filterMap leafName).insertionSort (· ≤ ·)

def Actor.key (a : Actor) : String := actorTypeKey a.className (a.names true) (a.names false)

def Actor.typeElement (a : Actor) (type : String) : ActorTypeElement :=
  Dumper.typeElement type (a.names true) (a.names false)

structure Actor.Linked (a : Actor) : Prop where
  className : a.className ≠ ""
  named : ∀ p ∈ a.ports, IsChildName a.name p.name
  leaf : ∀ p ∈ a.ports, p.child = none
  addresses : (a.ports.map (·.address)).Nodup

/-- What is used of the pool that makes names of types unique. -/
structure NamePool (pool : List String → String → String) : Prop where
  fresh : ∀ used s, pool used s ∉ used
  nonempty : ∀ used s, s ≠ "" → pool used s ≠ ""

theorem visited_names {owner : String} {ps : List Port} (h : ∀ p ∈ ps, IsChildName owner p.name) (isInput : Bool) :
    ((visited ps).filter (·.2.isInput == isInput)).map (·.2.portName) =
      (ps.filter (·.isInput == isInput)).filterMap leafName := by
  induction ps with
  | nil => rfl
  | cons p ps ih =>
    obtain ⟨port, hport, -, hleaf, hin, -⟩ := flummyPort_child (h p (by simp))
    have hvisited : visited (p :: ps) = (p.address, port) :: visited ps := by simp [visited, hport]
    have hps := ih fun q hq => h q (by simp [hq])
    rw [hvisited, List.filter_cons, List.filter_cons]
    simp only [hin]
    by_cases hd : (p.isInput == isInput) = true
    · simp [hd, hleaf, hps]
    · simp [hd, hps]

theorem leafNames_nodup {owner : String} {ps : List Port} (h : ∀ p ∈ ps, IsChildName owner p.name)
    (hn : (ps.map (·.name)).Nodup) : (ps.filterMap leafName).Nodup := by
  refine List.pairwise_filterMap.mpr ?_
  rw [List.nodup_iff_pairwise_ne, List.pairwise_map] at hn
  refine hn.imp_of_mem ?_
  intro p q hp hq hne n hpn m hqm heq
  obtain ⟨port, -, hactor, hleaf, -, hkey⟩ := flummyPort_child (h p hp)
  obtain ⟨port', -, hactor', hleaf', -, hkey'⟩ := flummyPort_child (h q hq)
  have hn : port.portName = n := by simpa [hleaf] using hpn
  have hm : port'.portName = m := by simpa [hleaf'] using hqm
  refine hne ?_
  rw [← hkey, ← hkey', FlummyPort.key, FlummyPort.key, hactor, hactor', hn, hm, heq]

theorem portNames_eq {a : Actor} (h : a.Linked) (hn : (a.ports.map (·.name)).Nodup) (isInput : Bool) :
    portNames (visited a.ports) isInput = some (a.names isInput) := by
  have hsub : ∀ p ∈ a.ports.filter (·.isInput == isInput), IsChildName a.name p.name := by
    intro p hp
    exact h.named p (List.mem_of_mem_filter hp)
  have hfilter : ((a.ports.filter (·.isInput == isInput)).map (·.name)).Nodup :=
    (List.filter_sublist.map _).nodup hn
  unfold portNames
  simp only [visited_names h.named, if_pos (leafNames_nodup hsub hfilter), Actor.names]

theorem typeElement_ports {a : Actor} (h : a.Linked) (type : String) :
    (a.typeElement type).ports.Perm (a.ports.map Port.element) := by
  have hside : ∀ d : Bool, ((a.names d).map fun n => (⟨some n, some (if d then "in" else "out")⟩ : PortElement)).Perm
      ((a.ports.filter (·.isInput == d)).map Port.element) := by
    intro d
    refine ((List.perm_insertionSort _ _).map _).trans ?_
    refine List.Perm.of_eq ?_
    rw [List.map_filterMap, ← List.filterMap_eq_map]
    refine List.filterMap_congr fun p hp => ?_
    obtain ⟨hp, hd⟩ := List.mem_filter.mp hp
    obtain ⟨port, -, -, hleaf, -, -⟩ := flummyPort_child (h.named p hp)
    simp [Port.element, hleaf, beq_iff_eq.mp hd]
  have hsplit : (a.ports.filter (·.isInput == true) ++ a.ports.filter (·.isInput == false)).Perm a.ports := by
    have hnot : (fun p : Port => p.isInput == false) = fun p => !(p.isInput == true) := by
      funext p
      cases p.isInput <;> rfl
    rw [hnot]
    exact List.filter_append_perm _ _
  have hmap := hsplit.map Port.element
  rw [List.map_append] at hmap
  exact ((hside true).append (hside false)).trans hmap

/-- After the actors `as`. -/
structure Dumped (as : List Actor) (ctx : SNGDumpCTX) : Prop where
  instances : ctx.actorInstances.Perm
    (as.map fun a => (a.name, ⟨some a.name, ctx.actorTypeCache.lookup a.key⟩))
  cached : ∀ a ∈ as, (ctx.actorTypeCache.lookup a.key).isSome
  types : ∀ k t, ctx.actorTypeCache.lookup k = some t →
    t ≠ "" ∧ t ∈ ctx.typeNames ∧ ∃ b ∈ as, b.key = k ∧ (t, b.typeElement t) ∈ ctx.actorTypes
  distinct : ∀ k l t, ctx.actorTypeCache.lookup k = some t → ctx.actorTypeCache.lookup l = some t → k = l
  given : ∀ e ∈ ctx.actorTypes, e.1 ∈ ctx.typeNames ∧ e.2.name = some e.1
  nodup : (ctx.actorTypes.map Prod.fst).Nodup

theorem Dumped.dumpType {pool : List String → String → String} (hpool : NamePool pool) {as : List Actor}
    {ctx : SNGDumpCTX} (h : Dumped as ctx) {a : Actor} (ha : a.Linked) :
    ∃ ctx' t, Dumper.dumpType pool ctx a.className (a.names true) (a.names false) = some (ctx', t) ∧
      ctx'.actorInstances = ctx.actorInstances ∧ ctx'.channelInstances = ctx.channelInstances ∧
      ∀ m, m.Perm ((a.name, ⟨some a.name, some t⟩) :: ctx.actorInstances) →
        Dumped (as ++ [a]) { ctx' with actorInstances := m } := by
  have hkey : actorTypeKey a.className (a.names true) (a.names false) = a.key := rfl
  have helement (t : String) : Dumper.typeElement t (a.names true) (a.names false) = a.typeElement t := rfl
  cases hlook : ctx.actorTypeCache.lookup a.key with
  | some t =>
    obtain ⟨hne, hused, b, hb, hbkey, hbtype⟩ := h.types _ _ hlook
    refine ⟨ctx, t, ?_, rfl, rfl, ?_⟩
    · unfold Dumper.dumpType
      simp [hkey, hlook, hne]
    · intro m hm
      refine ⟨?_, ?_, ?_, h.distinct, h.given, h.nodup⟩
      · refine hm.trans ?_
        rw [List.map_append, List.map_singleton, hlook]
        exact (h.instances.cons _).trans (List.perm_append_singleton _ _).symm
      · intro c hc
        obtain hc | hc := List.mem_append.mp hc
        · exact h.cached c hc
        · rw [List.mem_singleton.mp hc, hlook]
          rfl
      · intro k t' hk
        obtain ⟨hne', hused', c, hc, hckey, hctype⟩ := h.types k t' hk
        exact ⟨hne', hused', c, by simp [hc], hckey, hctype⟩
  | none =>
    have hnew := hpool.fresh ctx.typeNames a.className
    have hne := hpool.nonempty ctx.typeNames a.className ha.className
    generalize ht : pool ctx.typeNames a.className = t at hnew hne
    have hfresh : t ∉ ctx.actorTypes.map Prod.fst := by
      intro hmem
      obtain ⟨e, he, rfl⟩ := List.mem_map.mp hmem
      exact hnew (h.given e he).1
    obtain ⟨m', hm', hperm⟩ := insertOnce_spec (a.typeElement t) hfresh
    have hlookup (k : String) : ((a.key, t) :: ctx.actorTypeCache).lookup k =
        if k = a.key then some t else ctx.actorTypeCache.lookup k := by
      by_cases hk : k = a.key
      · simp [hk]
      · simp [hk, List.lookup_cons, beq_eq_false_iff_ne.mpr hk]
    have holder : ∀ c ∈ as, c.key ≠ a.key := by
      intro c hc heq
      have hsome := h.cached c hc
      rw [heq, hlook] at hsome
      cases hsome
    refine ⟨{ ctx with
      actorTypeCache := (a.key, t) :: ctx.actorTypeCache
      typeNames := ctx.typeNames ++ [t]
      actorTypes := m' }, t, ?_, rfl, rfl, ?_⟩
    · unfold Dumper.dumpType
      simp [hkey, helement, hlook, ht, hm']
    · intro m hm
      refine ⟨?_, ?_, ?_, ?_, ?_, ?_⟩
      · refine hm.trans ?_
        rw [List.map_append, List.map_singleton]
        simp only [hlookup, if_true]
        refine ((h.instances.trans (List.Perm.of_eq ?_)).cons _).trans (List.perm_append_singleton _ _).symm
        refine List.map_congr_left fun c hc => ?_
        rw [if_neg (holder c hc)]
      · intro c hc
        simp only [hlookup]
        obtain hc | hc := List.mem_append.mp hc
        · rw [if_neg (holder c hc)]
          exact h.cached c hc
        · rw [if_pos (by rw [List.mem_singleton.mp hc])]
          rfl
      · intro k t' hk
        simp only [hlookup] at hk
        by_cases hka : k = a.key
        · rw [if_pos hka, Option.some.injEq] at hk
          refine ⟨hk ▸ hne, by simp [hk], a, by simp, hka.symm, ?_⟩
          rw [← hk]
          exact hperm.mem_iff.mpr (by simp)
        · rw [if_neg hka] at hk
          obtain ⟨hne', hused', c, hc, hckey, hctype⟩ := h.types k t' hk
          exact ⟨hne', by simp [hused'], c, by simp [hc], hckey, hperm.mem_iff.mpr (by simp [hctype])⟩
      · intro k l t' hk hl
        simp only [hlookup] at hk hl
        by_cases hka : k = a.key
        · by_cases hla : l = a.key
          · rw [hka, hla]
          · rw [if_pos hka, Option.some.injEq] at hk
            rw [if_neg hla] at hl
            exact absurd (h.types l t' hl).2.1 (hk ▸ hnew)
        · rw [if_neg hka] at hk
          by_cases hla : l = a.key
          · rw [if_pos hla, Option.some.injEq] at hl
            exact absurd (h.types k t' hk).2.1 (hl ▸ hnew)
          · rw [if_neg hla] at hl
            exact h.distinct k l t' hk hl
      · intro e he
        obtain rfl | he := List.mem_cons.mp (hperm.mem_iff.mp he)
        · exact ⟨by simp, rfl⟩
        · exact ⟨by simp [(h.given e he).1], (h.given e he).2⟩
      · exact (hperm.map Prod.fst).nodup_iff.mpr (List.nodup_cons.mpr ⟨hfresh, h.nodup⟩)

end SysteMoC.Dumper
