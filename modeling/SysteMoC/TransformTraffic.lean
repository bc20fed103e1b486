import SysteMoC.TransformFeeds
import Mathlib.Algebra.BigOperators.Group.Finset.Basic
import Mathlib.Algebra.BigOperators.Group.Finset.Piecewise
import Mathlib.Algebra.Order.BigOperators.Group.Finset
import Mathlib.Data.Finset.Lattice.Fold

/-!
# Traffic and memory of a transformed graph

The bytes an actor reads stay the same. A merged edge carries one copy of each content, and a
merged FIFO has room for the largest capacity of each content.
-/

namespace SysteMoC.SNG

def traffic (es : List Edge) : Nat := (es.map (·.value)).sum

namespace Graph

/-- Channels an actor writes through one port have one token size and one rate. -/
def SamePorts (g : Graph) : Prop :=
  ∀ v, g.IsActor v → ∀ e ∈ g.outEdges v, ∀ e' ∈ g.outEdges v, e.name = e'.name →
    ∀ kind orig orig', g.channel? e.target = some (kind, orig) → g.channel? e'.target = some (kind, orig') →
      orig.tokenSize = orig'.tokenSize ∧ e.value = e'.value

def mergedWrites (g : Graph) (t : Merging) (v : Nat) (name : String) : Finset Write :=
  (Grouping.group (·.chanName t) (g.writes v) name).toFinset

end Graph

/-- One of the writes for each content. -/
structure OnePerContent (ws reps : Finset Write) : Prop where
  sub : reps ⊆ ws
  once : Set.InjOn Write.chanNameSameContent reps
  all : ∀ w ∈ ws, ∃ w' ∈ reps, w'.chanNameSameContent = w.chanNameSameContent

/-- The largest capacity of the writes of a content. -/
def capacityOf (ws : Finset Write) (content : String) : Nat :=
  (ws.filter (·.chanNameSameContent = content)).sup (·.orig.capacity)

/-- What `gout` says about the traffic of `g`. -/
structure Accounts (t : Merging) (g gout : Graph) (copy : Nat → Nat) (chan : Nat → String → Nat) : Prop where
  reads : ∀ v, g.IsActor v → traffic (g.inEdges v) < 2 ^ 64 →
    traffic (gout.inEdges (copy v)) = traffic (g.inEdges v)
  targets : ∀ v, g.IsActor v → ((gout.outEdges (copy v)).map (·.target)).Nodup ∧
    ∀ u, u ∈ (gout.outEdges (copy v)).map (·.target) ↔ ∃ w ∈ g.writes v, chan v (w.chanName t) = u
  writes : ∀ v, g.IsActor v → ∀ e ∈ gout.outEdges (copy v), ∀ name, chan v name = e.target →
    ∀ reps, OnePerContent (g.mergedWrites t v name) reps → ∑ w ∈ reps, w.eiEdge.value < 2 ^ 64 →
      e.value = ∑ w ∈ reps, w.eiEdge.value
  fifos : ∀ v, g.IsActor v → ∀ e ∈ gout.outEdges (copy v), ∀ name, chan v name = e.target →
    ∀ chanName tokenSize capacity delay, gout.vertices[e.target]? = some ⟨chanName, .fifo tokenSize capacity delay⟩ →
      ∀ reps, OnePerContent (g.mergedWrites t v name) reps →
        ∑ w ∈ reps, w.orig.tokenSize * capacityOf (g.mergedWrites t v name) w.chanNameSameContent < 2 ^ 64 →
          tokenSize * capacity =
            ∑ w ∈ reps, w.orig.tokenSize * capacityOf (g.mergedWrites t v name) w.chanNameSameContent

/-! ## Sums over contents -/

section
variable {ws : List Write} {reps : Finset Write} {t : Merging} {m : MergedChan} {content : String}

theorem capacityOf_eq (ws : List Write) (content : String) : capacityOf ws.toFinset content = maxCapacity ws content := by
  unfold capacityOf
  induction ws using List.reverseRecOn with
  | nil => rfl
  | append_singleton ws w ih =>
    rw [List.toFinset_append, Finset.filter_union, Finset.sup_union, ih]
    by_cases hcontent : w.chanNameSameContent = content
    · subst hcontent
      rw [maxCapacity_concat_self]
      simp [Finset.filter_singleton]
    · rw [maxCapacity_concat_of_ne (Ne.symm hcontent)]
      simp [Finset.filter_singleton, hcontent]

/-- A sum over one write of each content is a sum over the contents. -/
theorem sum_reps (f : String → Nat) {keys : List String} (hreps : OnePerContent ws.toFinset reps)
    (hnodup : keys.Nodup) (hkeys : ∀ content, content ∈ keys ↔ ∃ w ∈ ws, w.chanNameSameContent = content) :
    ∑ w ∈ reps, f w.chanNameSameContent = (keys.map f).sum := by
  rw [← List.sum_toFinset f hnodup, ← Finset.sum_image hreps.once]
  refine Finset.sum_congr ?_ fun _ _ => rfl
  ext content
  rw [Finset.mem_image, List.mem_toFinset, hkeys]
  constructor
  · intro ⟨w, hw, heq⟩
    exact ⟨w, List.mem_toFinset.mp (hreps.sub hw), heq⟩
  · intro ⟨w, hw, heq⟩
    obtain ⟨w', hw', heq'⟩ := hreps.all w (List.mem_toFinset.mpr hw)
    exact ⟨w', hw', heq'.trans heq⟩

/-- The sizes in the map are those of the contents. -/
theorem MergedOf.sum_sizes (h : MergedOf t ws m) (hreps : OnePerContent ws.toFinset reps) :
    (m.origChanInfo.map fun entry => entry.2.tokenSize * entry.2.capacity).sum =
      ∑ w ∈ reps, w.orig.tokenSize * capacityOf ws.toFinset w.chanNameSameContent := by
  have hsum := sum_reps (fun content => ((m.origChanInfo.lookup content).map fun o => o.tokenSize * o.capacity).getD 0)
    hreps h.contents.nodup h.contents.keys
  rw [List.map_map] at hsum
  have hleft : m.origChanInfo.map (fun entry => entry.2.tokenSize * entry.2.capacity) =
      m.origChanInfo.map ((fun content => ((m.origChanInfo.lookup content).map
        fun o => o.tokenSize * o.capacity).getD 0) ∘ Prod.fst) := by
    refine List.map_congr_left ?_
    intro entry hentry
    rw [Function.comp_apply, Assoc.lookup_of_mem h.contents.nodup hentry]
    rfl
  rw [hleft, ← hsum]
  refine Finset.sum_congr rfl ?_
  intro w hw
  rw [h.contents.lookup w (List.mem_toFinset.mp (hreps.sub hw)), capacityOf_eq]
  rfl

theorem MergedOf.fifo_size {tokenSize capacity delay : Nat} (h : MergedOf t ws m)
    (htype : m.viMergedChan.type = .fifo tokenSize capacity delay) (hreps : OnePerContent ws.toFinset reps)
    (hlt : ∑ w ∈ reps, w.orig.tokenSize * capacityOf ws.toFinset w.chanNameSameContent < 2 ^ 64) :
    tokenSize * capacity = ∑ w ∈ reps, w.orig.tokenSize * capacityOf ws.toFinset w.chanNameSameContent := by
  have hsum := h.sum_sizes hreps
  rw [← hsum] at hlt ⊢
  have hsized := h.sized
  rw [htype] at hsized
  obtain ⟨content, hone⟩ | ⟨_, hsize, hcap⟩ := hsized
  · rw [hone]
    simp
  · rw [hsize, hcap, Nat.mul_one]
    exact Nat.mod_eq_of_lt hlt

theorem MergedOf.edge_value (h : MergedOf t ws m)
    (hsame : ∀ w ∈ ws, ∀ w' ∈ ws, w.chanNameSameContent = w'.chanNameSameContent → w.eiEdge.value = w'.eiEdge.value)
    (hreps : OnePerContent ws.toFinset reps) (hlt : ∑ w ∈ reps, w.eiEdge.value < 2 ^ 64) :
    m.eiMergedEdge.value = ∑ w ∈ reps, w.eiEdge.value := by
  obtain ⟨firsts, hmem, hkeys, hholds⟩ := h.edge
  -- the value as a function of the content
  have hvalue : ∃ f : String → Nat, ∀ w ∈ ws, w.eiEdge.value = f w.chanNameSameContent := by
    refine ⟨fun content => ((ws.find? (·.chanNameSameContent = content)).map (·.eiEdge.value)).getD 0, ?_⟩
    intro w hw
    cases hfind : ws.find? (·.chanNameSameContent = w.chanNameSameContent) with
    | none => exact absurd (by simp) (List.find?_eq_none.mp hfind w hw)
    | some w' =>
      dsimp only
      rw [hfind]
      have hcontent := List.find?_some hfind
      rw [decide_eq_true_eq] at hcontent
      exact hsame w hw w' (List.mem_of_find?_eq_some hfind) hcontent.symm
  obtain ⟨f, hf⟩ := hvalue
  have hreps' : ∑ w ∈ reps, w.eiEdge.value = ∑ w ∈ reps, f w.chanNameSameContent :=
    Finset.sum_congr rfl fun w hw => hf w (List.mem_toFinset.mp (hreps.sub hw))
  have hfirsts : (firsts.map (·.eiEdge.value)).sum = ((m.origChanInfo.map Prod.fst).map f).sum := by
    rw [← hkeys, List.map_map]
    congr 1
    exact List.map_congr_left fun w hw => hf w (hmem w hw)
  have hsum := sum_reps f hreps h.contents.nodup h.contents.keys
  rw [hfirsts, ← hsum, ← hreps'] at hholds
  exact hholds.eq hlt

end

/-! ## Reads -/

theorem sum_groups {A K : Type} [DecidableEq K] (f : A → K) (val : A → Nat) (l : List A) (s : Finset K)
    (hs : ∀ a ∈ l, f a ∈ s) : ∑ k ∈ s, ((Grouping.group f l k).map val).sum = (l.map val).sum := by
  induction l with
  | nil => simp
  | cons a l ih =>
    have hsplit : ∀ k, ((Grouping.group f (a :: l) k).map val).sum =
        (if f a = k then val a else 0) + ((Grouping.group f l k).map val).sum := by
      intro k
      unfold Grouping.group
      by_cases hk : f a = k
      · rw [List.filter_cons_of_pos (by simpa using hk), if_pos hk]
        simp
      · rw [List.filter_cons_of_neg (by simpa using hk), if_neg hk, Nat.zero_add]
    rw [Finset.sum_congr rfl fun k _ => hsplit k, Finset.sum_add_distrib, Finset.sum_ite_eq,
      if_pos (hs a List.mem_cons_self), ih fun a ha => hs a (List.mem_cons_of_mem _ ha)]
    simp

theorem mergedRead_holds {place : Nat → Copied} {es : List Edge} {l : Copied} {ei : EdgeInfo}
    (h : mergedRead place es l = some ei) :
    ei.Holds (traffic (Grouping.group (fun e => place e.source) es l)) := by
  refine Grouping.fold_induction (P := fun es (ei : EdgeInfo) => ei.Holds (traffic es)) ?_ ?_ h
  · intro e
    unfold EdgeInfo.Holds traffic
    simp
  · intro es e ei ei' _ hholds hnext
    cases hnext
    have hmerge : (ei.merge e.toEdgeInfo).Holds (traffic es + e.value) := hholds.merge
    unfold traffic at hmerge ⊢
    simpa using hmerge

namespace Transformed

variable {t : Merging} {g gout : Graph} {L : List Copied} {E : List Link} {v : Nat}
  (h : Transformed t g L E gout)
include h

theorem inEdges_map (v : Nat) : (gout.inEdges (L.idxOf (.actor v))).map some =
    (E.filter fun k => k.target = .actor v).map fun k =>
      (linkInfo t g.writes (g.place t) g.inEdges k).map fun ei => (⟨ei, L.idxOf k.source, L.idxOf k.target⟩ : Edge) := by
  refine h.described.edges.filter_map ?_
  intro k hk e he
  obtain ⟨ei, _, rfl⟩ := Option.map_eq_some_iff.mp he
  dsimp only
  rw [decide_eq_decide]
  constructor
  · exact (List.idxOf_inj (h.described.ends k hk).2).mp
  · intro heq
    rw [heq]

theorem traffic_inEdges (hv : g.IsActor v) (hlt : traffic (g.inEdges v) < 2 ^ 64) :
    traffic (gout.inEdges (L.idxOf (.actor v))) = traffic (g.inEdges v) := by
  have hread : ∀ k ∈ E.filter (·.target = .actor v), k = .read k.source v ∧ k ∈ E := by
    intro k hk
    rw [List.mem_filter, decide_eq_true_eq] at hk
    refine ⟨?_, hk.1⟩
    cases k with
    | write u name => cases hk.2
    | read l u =>
      cases hk.2
      rfl
  -- the groups are no larger than the whole
  have hgroups := sum_groups (fun e : Edge => g.place t e.source) (·.value) (g.inEdges v)
    ((E.filter (·.target = .actor v)).map (·.source)).toFinset (by
      intro e he
      rw [List.mem_toFinset, List.mem_map]
      refine ⟨.read (g.place t e.source) v, ?_, rfl⟩
      rw [List.mem_filter]
      exact ⟨(h.links _).mpr ⟨Graph.mem_actors.mpr hv, e, he, rfl⟩, by simp [Link.target]⟩)
  have hle : ∀ l ∈ (E.filter (·.target = .actor v)).map (·.source),
      traffic (Grouping.group (fun e => g.place t e.source) (g.inEdges v) l) < 2 ^ 64 := by
    intro l hl
    refine lt_of_le_of_lt ?_ hlt
    unfold traffic
    rw [← hgroups]
    exact Finset.single_le_sum (f := fun l => ((Grouping.group (fun e => g.place t e.source) (g.inEdges v) l).map
      fun e : Edge => e.value).sum) (fun _ _ => Nat.zero_le _) (List.mem_toFinset.mpr hl)
  have hvalues : (gout.inEdges (L.idxOf (.actor v))).map (·.value) =
      ((E.filter (·.target = .actor v)).map (·.source)).map fun l =>
        traffic (Grouping.group (fun e => g.place t e.source) (g.inEdges v) l) := by
    have hmap := congrArg (List.map fun o : Option Edge => (o.map (·.value)).getD 0) (h.inEdges_map v)
    rw [List.map_map, List.map_map] at hmap
    rw [List.map_map]
    refine Eq.trans ?_ (hmap.trans ?_)
    · rfl
    · refine List.map_congr_left ?_
      intro k hk
      obtain ⟨hkread, hkE⟩ := hread k hk
      have hsome := h.described.edges.isSome hkE
      rw [Option.isSome_map] at hsome
      obtain ⟨ei, hei⟩ := Option.isSome_iff_exists.mp hsome
      rw [Function.comp_apply, Function.comp_apply, hei, Option.map_some, Option.map_some, Option.getD_some]
      rw [hkread, linkInfo_read] at hei
      exact (mergedRead_holds hei).eq (hle _ (List.mem_map_of_mem hk))
  have hnodup : ((E.filter (·.target = .actor v)).map (·.source)).Nodup := by
    refine (h.described.edges.nodup.filter _).map_on ?_
    intro k hk k' hk' heq
    rw [(hread k hk).1, (hread k' hk').1, heq]
  rw [List.sum_toFinset _ hnodup] at hgroups
  unfold traffic
  rw [hvalues, ← hgroups]
  rfl

/-! ## Writes -/

theorem write_link (hbip : g.Bipartite) {k : Link} (hk : k ∈ E) (hsrc : k.source = .actor v) :
    ∃ name, k = .write v name := by
  cases k with
  | write u name =>
    cases hsrc
    exact ⟨name, rfl⟩
  | read l u => exact absurd hsrc ((h.read_link hbip hk).2.2.1 v)

theorem outEdges_iff (hbip : g.Bipartite) {e : Edge} : e ∈ gout.outEdges (L.idxOf (.actor v)) ↔
    ∃ name m, Link.write v name ∈ E ∧ merged t (g.writes v) name = some m ∧
      e = ⟨m.eiMergedEdge, L.idxOf (.actor v), L.idxOf (.chan v name)⟩ := by
  rw [Graph.mem_outEdges, h.mem_edges]
  constructor
  · intro ⟨⟨k, hk, ei, hei, heq⟩, hsrc⟩
    subst heq
    obtain ⟨name, rfl⟩ := h.write_link hbip hk ((List.idxOf_inj (h.described.ends k hk).1).mp hsrc)
    rw [linkInfo_write] at hei
    obtain ⟨m, hm, rfl⟩ := Option.map_eq_some_iff.mp hei
    exact ⟨name, m, hk, hm, rfl⟩
  · intro ⟨name, m, hk, hm, heq⟩
    subst heq
    refine ⟨⟨_, hk, m.eiMergedEdge, ?_, rfl⟩, rfl⟩
    rw [linkInfo_write, hm]
    rfl

theorem targets_nodup (hbip : g.Bipartite) : ((gout.outEdges (L.idxOf (.actor v))).map (·.target)).Nodup := by
  have hmap : (gout.outEdges (L.idxOf (.actor v))).map some = (E.filter fun k => k.source = .actor v).map fun k =>
      (linkInfo t g.writes (g.place t) g.inEdges k).map
        fun ei => (⟨ei, L.idxOf k.source, L.idxOf k.target⟩ : Edge) := by
    refine h.described.edges.filter_map ?_
    intro k hk e he
    obtain ⟨ei, _, rfl⟩ := Option.map_eq_some_iff.mp he
    dsimp only
    rw [decide_eq_decide]
    exact List.idxOf_inj (h.described.ends k hk).1
  have htargets := congrArg (List.map fun o : Option Edge => (o.map (·.target)).getD 0) hmap
  rw [List.map_map, List.map_map] at htargets
  have heq : (gout.outEdges (L.idxOf (.actor v))).map (·.target) =
      (E.filter fun k => k.source = .actor v).map fun k => L.idxOf k.target := by
    refine Eq.trans ?_ (htargets.trans ?_)
    · rfl
    · refine List.map_congr_left ?_
      intro k hk
      have hsome := h.described.edges.isSome (List.mem_of_mem_filter hk)
      rw [Option.isSome_map] at hsome
      obtain ⟨ei, hei⟩ := Option.isSome_iff_exists.mp hsome
      rw [Function.comp_apply, hei]
      rfl
  rw [heq]
  refine (h.described.edges.nodup.filter _).map_on ?_
  intro k hk k' hk' hidx
  rw [List.mem_filter, decide_eq_true_eq] at hk hk'
  have htgt := (List.idxOf_inj (h.described.ends k hk.1).2).mp hidx
  obtain ⟨name, rfl⟩ := h.write_link hbip hk.1 hk.2
  obtain ⟨name', rfl⟩ := h.write_link hbip hk'.1 hk'.2
  cases htgt
  rfl

theorem targets_iff (hbip : g.Bipartite) (hv : g.IsActor v) (u : Nat) :
    u ∈ (gout.outEdges (L.idxOf (.actor v))).map (·.target) ↔
      ∃ w ∈ g.writes v, L.idxOf (.chan v (w.chanName t)) = u := by
  rw [List.mem_map]
  constructor
  · intro ⟨e, he, htgt⟩
    obtain ⟨name, m, hk, hm, rfl⟩ := (h.outEdges_iff hbip).mp he
    obtain ⟨w, hw, rfl⟩ := merged_mem hm
    exact ⟨w, hw, htgt⟩
  · intro ⟨w, hw, hidx⟩
    have hk : Link.write v (w.chanName t) ∈ E := (h.links _).mpr ⟨Graph.mem_actors.mpr hv, w, hw, rfl⟩
    obtain ⟨m, hm⟩ := Option.isSome_iff_exists.mp (h.merges hv w hw)
    exact ⟨_, (h.outEdges_iff hbip).mpr ⟨_, m, hk, hm, rfl⟩, hidx⟩

theorem writeEdge (hbip : g.Bipartite) {e : Edge} {name : String} (he : e ∈ gout.outEdges (L.idxOf (.actor v)))
    (hname : L.idxOf (.chan v name) = e.target) :
    ∃ m, merged t (g.writes v) name = some m ∧ e.toEdgeInfo = m.eiMergedEdge ∧
      gout.vertices[e.target]? = some m.viMergedChan := by
  obtain ⟨name', m, hk, hm, rfl⟩ := (h.outEdges_iff hbip).mp he
  have hl : Copied.chan v name' ∈ L := (h.described.ends _ hk).2
  have hinj := (List.idxOf_inj hl).mp hname.symm
  cases hinj
  refine ⟨m, hm, rfl, ?_⟩
  rw [h.described.getVertex hl, copiedInfo_chan, hm]
  rfl

end Transformed

theorem Graph.SamePorts.values {g : Graph} (h : g.SamePorts) {v : Nat} (hv : g.IsActor v) :
    ∀ w ∈ g.writes v, ∀ w' ∈ g.writes v, w.chanNameSameContent = w'.chanNameSameContent →
      w.eiEdge.value = w'.eiEdge.value := by
  obtain ⟨name, r, hget⟩ := hv.info
  have hof := Graph.writes_of hget
  intro w hw w' hw' heq
  obtain ⟨hkind, hport⟩ := ((hof w hw).content_eq_iff (hof w' hw')).mp heq
  obtain ⟨e, he, hread, hname, kind, hk, hchan⟩ := Graph.writes_channel hget hw
  obtain ⟨e', he', hread', hname', kind', hk', hchan'⟩ := Graph.writes_channel hget hw'
  rw [hk, hk', Option.some.injEq] at hkind
  subst hkind
  rw [(readWrite_some hread).2.1, (readWrite_some hread').2.1]
  exact (h v hv e he e' he' (by rw [← hname, ← hname', hport]) kind _ _ hchan hchan').2

/-- Merging keeps the traffic, and its channels have the sizes of their contents. -/
theorem traffic_preserved (g : Graph) (t : Merging) (hbip : g.Bipartite) (hports : g.SamePorts) :
    ∃ gout copy chan, transform g t.transform = some gout ∧ CopiesActors g gout copy ∧
      Accounts t g gout copy chan := by
  have hmerges : ∀ v, g.IsActor v → Merges t (g.writes v) := by
    intro v hv
    obtain ⟨name, r, hget⟩ := hv.info
    refine (merges_iff (Graph.writes_of hget)).mpr ((sizes_iff hv hbip).mpr ?_)
    intro e he e' he' hname kind orig orig' hchan hchan'
    exact (hports v hv e he e' he' hname kind orig orig' hchan hchan').1
  obtain ⟨gout, hgout⟩ := Option.isSome_iff_exists.mp (transformFifos_isSome hbip hmerges)
  obtain ⟨L, E, h⟩ := transformFifos_transformed hbip hgout
  refine ⟨gout, _, fun v name => L.idxOf (.chan v name), transform_merging.trans hgout, h.copies hbip, ?_, ?_, ?_, ?_⟩
  · intro v hv hlt
    exact h.traffic_inEdges hv hlt
  · intro v hv
    exact ⟨h.targets_nodup hbip, h.targets_iff hbip hv⟩
  · intro v hv e he name hname reps hreps hlt
    obtain ⟨m, hm, hei, _⟩ := h.writeEdge hbip he hname
    obtain ⟨_, _, hget⟩ := hv.info
    rw [hei]
    refine (mergedOf (Graph.writes_of hget) hm).edge_value ?_ hreps hlt
    intro w hw w' hw'
    exact hports.values hv w (Grouping.mem_group.mp hw).1 w' (Grouping.mem_group.mp hw').1
  · intro v hv e he name hname chanName tokenSize capacity delay hvertex reps hreps hlt
    obtain ⟨m, hm, _, hvi⟩ := h.writeEdge hbip he hname
    obtain ⟨_, _, hget⟩ := hv.info
    rw [hvi] at hvertex
    exact (mergedOf (Graph.writes_of hget) hm).fifo_size (by rw [Option.some.inj hvertex]) hreps hlt

def forkGraph : Graph :=
  ⟨[⟨"tx.a", .actor unknown⟩, ⟨"rx.b", .actor unknown⟩, ⟨"rx.c", .actor unknown⟩, ⟨"cf1", .fifo 8 4 0⟩,
      ⟨"cf2", .fifo 8 2 1⟩],
    [⟨⟨"o", 8, 1⟩, 0, 3⟩, ⟨⟨"i", 8, 1⟩, 3, 1⟩, ⟨⟨"o", 8, 1⟩, 0, 4⟩, ⟨⟨"i", 8, 1⟩, 4, 2⟩]⟩

theorem traffic_preserved_fork : ∃ gout copy chan,
    transform forkGraph .fifosSameContentMerging = some gout ∧ CopiesActors forkGraph gout copy ∧
      Accounts .sameContent forkGraph gout copy chan := by
  refine traffic_preserved forkGraph .sameContent ?_ ?_
  · intro e he
    simp only [forkGraph, List.mem_cons, List.not_mem_nil, or_false] at he
    obtain rfl | rfl | rfl | rfl := he
    · exact .inl ⟨by decide, _, rfl, rfl⟩
    · exact .inr ⟨⟨_, rfl, rfl⟩, by decide⟩
    · exact .inl ⟨by decide, _, rfl, rfl⟩
    · exact .inr ⟨⟨_, rfl, rfl⟩, by decide⟩
  · have hsizes : ∀ e ∈ forkGraph.edges, (forkGraph.channel? e.target).all fun p => p.2.tokenSize = 8 := by decide
    have hvalues : ∀ e ∈ forkGraph.edges, e.value = 8 := by decide
    intro v _ e he e' he' _ kind orig orig' hchan hchan'
    have hsize := hsizes e (Graph.mem_outEdges.mp he).1
    have hsize' := hsizes e' (Graph.mem_outEdges.mp he').1
    rw [hchan] at hsize
    rw [hchan'] at hsize'
    simp only [Option.all_some, decide_eq_true_eq] at hsize hsize'
    exact ⟨hsize.trans hsize'.symm,
      (hvalues e (Graph.mem_outEdges.mp he).1).trans (hvalues e' (Graph.mem_outEdges.mp he').1).symm⟩

/-- Sizes of the merged FIFO of the fork. -/
example : (transform forkGraph .fifosSameContentMerging).map (·.vertices) =
    some [⟨"tx.a", .actor unknown⟩, ⟨"cf:tx.a.o", .fifo 8 4 unknown⟩, ⟨"rx.b", .actor unknown⟩,
      ⟨"rx.c", .actor unknown⟩] := by decide +kernel

end SysteMoC.SNG
