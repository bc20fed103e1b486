import SysteMoC.GeneratorPhases
import SysteMoC.Digraph

/-!
# Topology of the generated graphs

After the join of the components the actors are weakly connected. With `create-dag` there
is no cycle: up to the join the numbers of the actors order the graph, afterwards any
ranking does, since a join leads into a component without a way back.
-/

namespace SysteMoC.SNG

open Drawing Digraph Relation

namespace Graph

variable {g : Graph} {u v x y : Nat} {ei : EdgeInfo}

def WeaklyConnected (g : Graph) : Prop := ∀ u v, g.IsActor u → g.IsActor v → Weak g.HasEdge u v

def Acyclic (g : Graph) : Prop := ∀ v, ¬ TransGen g.HasEdge v v

/-- What `connected_components` gives: the components are those of the undirected graph,
numbered from 0. -/
structure Components (g : Graph) (compNum : Nat) (compMap : Nat → Nat) : Prop where
  lt : ∀ v < g.vertices.length, compMap v < compNum
  same : ∀ u < g.vertices.length, ∀ v < g.vertices.length, compMap u = compMap v ↔ Weak g.HasEdge u v

theorem hasEdge_addEdge :
    (g.addEdge u v ei).HasEdge x y ↔ g.HasEdge x y ∨ (x = u ∧ y = v) := by
  unfold HasEdge
  simp only [edges_addEdge, List.mem_append, List.mem_singleton, or_and_right, exists_or, exists_eq_left]
  rw [eq_comm (a := u), eq_comm (a := v)]

theorem Closed.fresh (h : g.Closed) {c : Nat} (hc : g.vertices.length ≤ c) (x : Nat) :
    ¬ g.HasEdge x c ∧ ¬ g.HasEdge c x := by
  refine ⟨?_, ?_⟩
  · intro ⟨e, he, _, htgt⟩
    have := (h e he).2
    omega
  · intro ⟨e, he, hsrc, _⟩
    have := (h e he).1
    omega

theorem Closed.hasEdge_lt (h : g.Closed) (hxy : g.HasEdge x y) :
    x < g.vertices.length ∧ y < g.vertices.length := by
  obtain ⟨e, he, rfl, rfl⟩ := hxy
  exact h e he

end Graph

namespace Generator

theorem ChannelAdded.hasEdge {g g' : Graph} {src c prod x y : Nat} {snks cons : List Nat}
    (h : ChannelAdded g g' src c snks prod cons) :
    g'.HasEdge x y ↔ g.HasEdge x y ∨ (x = src ∧ y = c) ∨ (x = c ∧ y ∈ snks) := by
  obtain ⟨name, es, hes, hessrc, htgt, _⟩ := h.edges
  have hnew : (∃ e ∈ es, e.source = x ∧ e.target = y) ↔ x = c ∧ y ∈ snks := by
    rw [← htgt, List.mem_map]
    constructor
    · intro ⟨e, he, hx, hy⟩
      exact ⟨hx.symm.trans (hessrc e he), e, he, hy⟩
    · intro ⟨hx, e, he, hy⟩
      exact ⟨e, he, (hessrc e he).trans hx.symm, hy⟩
  unfold Graph.HasEdge
  simp only [hes, List.mem_append, List.mem_cons, or_and_right, exists_or, exists_eq_left, hnew]
  rw [eq_comm (a := src), eq_comm (a := c) (b := y)]

theorem ChannelAdded.hasEdge_via {g g' : Graph} {src snk c prod : Nat} {cons : List Nat}
    (h : ChannelAdded g g' src c [snk] prod cons) : g'.HasEdge = Via g.HasEdge src c snk := by
  funext x y
  rw [h.hasEdge, List.mem_singleton]
  rfl

/-! ## Up to the join -/

/-- With `dag` the edges go up in a ranking that has the actors at their numbers, with
room between them. -/
structure Ascending (dag : Bool) (g : Graph) : Prop where
  closed : g.Closed
  ranked : dag = true →
    ∃ r : Nat → Nat, (∀ v, g.IsActor v → r v = 2 * v) ∧ ∀ x y, g.HasEdge x y → r x < r y

section
variable {dag : Bool} {st st' : Generator}

theorem Ascending.addActor (h : Ascending dag st.g) (name : String) (rep : Nat) :
    Ascending dag (st.addActor name rep).g := by
  refine ⟨h.closed.addVertex, ?_⟩
  intro hdag
  obtain ⟨r, hact, hr⟩ := h.ranked hdag
  refine ⟨Function.update r st.g.vertices.length (2 * st.g.vertices.length), ?_, ?_⟩
  · intro v hv
    by_cases hlt : v < st.g.vertices.length
    · rw [Function.update_of_ne (by omega)]
      refine hact v ?_
      unfold Graph.IsActor at hv ⊢
      rwa [show (st.addActor name rep).g = st.g.addVertex ⟨name, .actor rep⟩ from rfl,
        Graph.repCount?_addVertex hlt] at hv
    · have hlen := hv.lt
      simp only [Generator.addActor, Graph.vertices_addVertex, List.length_append, List.length_singleton] at hlen
      obtain rfl : v = st.g.vertices.length := by omega
      rw [Function.update_self]
  · intro x y hxy
    obtain ⟨hx, hy⟩ := h.closed.hasEdge_lt hxy
    rw [Function.update_of_ne (by omega), Function.update_of_ne (by omega)]
    exact hr x y hxy

theorem Ascending.channel (h : Ascending dag st.g) {pre : String} {src c : Nat} {snks : List Nat}
    (hdag : dag = true → ∀ v ∈ snks, src < v) (hadd : st.addChannel pre src snks = some (c, st')) :
    Ascending dag st'.g := by
  obtain ⟨_, _, _, _, _, _, _, _, hadded⟩ := channelAdded hadd
  refine ⟨hadded.closed h.closed, ?_⟩
  intro hd
  obtain ⟨r, hact, hr⟩ := h.ranked hd
  obtain ⟨name, hname⟩ := hadded.vertices
  have hfresh := hadded.fresh
  have hne : ∀ v, st.g.IsActor v → v ≠ c := fun v hv => by
    have := hv.lt
    omega
  -- the channel goes right behind its producer
  refine ⟨Function.update r c (2 * src + 1), ?_, ?_⟩
  · intro v hv
    have hv := hv.of_append (by simp) hname
    rw [Function.update_of_ne (hne v hv), hact v hv]
  · intro x y hxy
    obtain hxy | ⟨rfl, rfl⟩ | ⟨rfl, hy⟩ := hadded.hasEdge.mp hxy
    · obtain ⟨hx, hy⟩ := h.closed.hasEdge_lt hxy
      rw [Function.update_of_ne (by omega), Function.update_of_ne (by omega)]
      exact hr x y hxy
    · rw [Function.update_of_ne (hne x hadded.source), Function.update_self, hact x hadded.source]
      omega
    · rw [Function.update_self, Function.update_of_ne (hne y (hadded.sinks y hy)), hact y (hadded.sinks y hy)]
      have := hdag hd y hy
      omega

theorem kept_ascending (dag : Bool) : Kept dag fun st => Ascending dag st.g where
  actor _ name rep h := h.addActor name rep
  channel _ _ _ _ _ _ h _ hdag hadd := h.channel hdag hadd

theorem ascending_start (dag : Bool) : Ascending dag start.g where
  closed := by
    intro e he
    cases he
  ranked := by
    intro _
    refine ⟨fun v => 2 * v, fun _ _ => rfl, ?_⟩
    intro x y ⟨e, he, _⟩
    cases he

end

/-! ## The join -/

/-- The labels of different components differ. -/
def Separated (f : Nat → Nat) (components : List (List Nat)) : Prop :=
  ∀ (i k : Nat) (a b : List Nat), i ≠ k → components[i]? = some a → components[k]? = some b →
    ∀ u ∈ a, ∀ v ∈ b, f u ≠ f v

/-- The lists of `components` hold the actors. Each is connected, and labels that edges
leave alone tell them apart. -/
structure Joining (dag : Bool) (components : List (List Nat)) (g : Graph) : Prop where
  closed : g.Closed
  ranked : dag = true → Ranked g.HasEdge
  covered : ∀ v, g.IsActor v → ∃ l ∈ components, v ∈ l
  connected : ∀ l ∈ components, ∀ u ∈ l, ∀ v ∈ l, Weak g.HasEdge u v
  separated : ∃ f, Labels g.HasEdge f ∧ Separated f components
  below : ∀ l ∈ components, ∀ v ∈ l, v < g.vertices.length

theorem getElem?_joined {components : List (List Nat)} {i k j : Nat} {a l : List Nat}
    (h : ((components.set i a).eraseIdx k)[j]? = some l) :
    ((if j < k then j else j + 1) = i ∧ l = a) ∨
      ((if j < k then j else j + 1) ≠ i ∧ components[if j < k then j else j + 1]? = some l) := by
  rw [List.getElem?_eraseIdx] at h
  split at h
  all_goals
    rename_i hj
    simp only [hj, if_true, if_false]
    rw [List.getElem?_set] at h
    split at h
    · rename_i hi
      split at h
      · cases h
        exact .inl ⟨hi.symm, rfl⟩
      · cases h
    · rename_i hi
      exact .inr ⟨Ne.symm hi, h⟩

theorem Separated.join {f : Nat → Nat} {components : List (List Nat)} (hsep : Separated f components)
    {i k u v c : Nat} {srcs snks : List Nat} (hsrcs : components[i]? = some srcs)
    (hsnks : components[k]? = some snks) (hu : u ∈ srcs) (hv : v ∈ snks)
    (hc : ∀ l ∈ components, ∀ x ∈ l, x ≠ c) :
    Separated (relabel f u c v) ((components.set i (srcs ++ snks)).eraseIdx k) := by
  -- a vertex outside the second component keeps its label
  have hother : ∀ (j : Nat) l, components[j]? = some l → j ≠ k → ∀ x ∈ l, relabel f u c v x = f x := by
    intro j l hj hjk x hx
    unfold relabel
    rw [if_neg (hc l (List.mem_of_getElem? hj) x hx), if_neg (hsep j k l snks hjk hj hsnks x hx v hv)]
  have hmerged : ∀ x, relabel f u c v x = f u ∨ relabel f u c v x = f x := by
    intro x
    unfold relabel
    split
    · exact .inl rfl
    · split
      · exact .inl rfl
      · exact .inr rfl
  have happart : ∀ (j : Nat) l, components[j]? = some l → j ≠ i → j ≠ k → ∀ x ∈ srcs ++ snks, ∀ y ∈ l,
      relabel f u c v x ≠ relabel f u c v y := by
    intro j l hj hji hjk x hx y hy heq
    rw [hother j l hj hjk y hy] at heq
    obtain hfx | hfx := hmerged x
    · exact hsep i j srcs l (Ne.symm hji) hsrcs hj u hu y hy (hfx.symm.trans heq)
    · rw [List.mem_append] at hx
      obtain hx | hx := hx
      · exact hsep i j srcs l (Ne.symm hji) hsrcs hj x hx y hy (hfx.symm.trans heq)
      · exact hsep k j snks l (Ne.symm hjk) hsnks hj x hx y hy (hfx.symm.trans heq)
  intro j₁ j₂ a b hj ha hb x hx y hy
  have hj₁k : (if j₁ < k then j₁ else j₁ + 1) ≠ k := by split <;> omega
  have hj₂k : (if j₂ < k then j₂ else j₂ + 1) ≠ k := by split <;> omega
  have hne : (if j₁ < k then j₁ else j₁ + 1) ≠ if j₂ < k then j₂ else j₂ + 1 := by split <;> split <;> omega
  obtain ⟨h₁, rfl⟩ | ⟨h₁, ha⟩ := getElem?_joined ha
  · obtain ⟨h₂, rfl⟩ | ⟨h₂, hb⟩ := getElem?_joined hb
    · exact absurd (h₁.trans h₂.symm) hne
    · exact happart _ b hb h₂ hj₂k x hx y hy
  · obtain ⟨h₂, rfl⟩ | ⟨h₂, hb⟩ := getElem?_joined hb
    · exact (happart _ a ha h₁ hj₁k y hy x hx).symm
    · rw [hother _ a ha hj₁k x hx, hother _ b hb hj₂k y hy]
      exact hsep _ _ a b hne ha hb x hx y hy

theorem keptByJoins_joining (dag : Bool) : KeptByJoins fun components st => Joining dag components st.g := by
  intro components st i k srcs snks pre u v c st' h hik hsrcs hsnks hu hv hadd
  obtain ⟨_, _, _, _, _, _, _, _, hadded⟩ := channelAdded hadd
  obtain ⟨f, hlabels, hsep⟩ := h.separated
  have hvia := hadded.hasEdge_via
  have hfresh := h.closed.fresh (Nat.le_of_eq hadded.fresh.symm)
  have hulen := hadded.source.lt
  have hvlen := (hadded.sinks v List.mem_cons_self).lt
  have hfreshc := hadded.fresh
  have huc : u ≠ c := by omega
  have hvc : v ≠ c := by omega
  have hfuv : f u ≠ f v := hsep i k srcs snks hik hsrcs hsnks u hu v hv
  have hkept : ∀ x y, st.g.HasEdge x y → st'.g.HasEdge x y := fun x y hxy => hadded.hasEdge.mpr (.inl hxy)
  have hsrcs_mem := List.mem_of_getElem? hsrcs
  have hsnks_mem := List.mem_of_getElem? hsnks
  have hnew : (components.set i (srcs ++ snks))[i]? = some (srcs ++ snks) :=
    List.getElem?_set_self (List.getElem?_eq_some_iff.mp hsrcs).1
  have hold : ∀ l ∈ (components.set i (srcs ++ snks)).eraseIdx k, l = srcs ++ snks ∨ l ∈ components := by
    intro l hl
    exact (List.mem_or_eq_of_mem_set (List.mem_of_mem_eraseIdx hl)).symm
  refine ⟨hadded.closed h.closed, ?_, ?_, ?_, ?_, ?_⟩
  · intro hdag
    rw [hvia]
    exact (h.ranked hdag).via hfresh huc hvc fun hpath => hfuv (hlabels.path hpath).symm
  · intro w hw
    obtain ⟨name, hname⟩ := hadded.vertices
    obtain ⟨l, hl, hwl⟩ := h.covered w (hw.of_append (by simp) hname)
    obtain ⟨j, hj⟩ := List.mem_iff_getElem?.mp hl
    by_cases hjik : j = i ∨ j = k
    · refine ⟨srcs ++ snks, List.mem_eraseIdx_iff_getElem?.mpr ⟨i, hik, hnew⟩, ?_⟩
      rw [List.mem_append]
      obtain rfl | rfl := hjik
      · rw [hsrcs] at hj
        cases hj
        exact .inl hwl
      · rw [hsnks] at hj
        cases hj
        exact .inr hwl
    · refine ⟨l, List.mem_eraseIdx_iff_getElem?.mpr ⟨j, fun hjk => hjik (.inr hjk), ?_⟩, hwl⟩
      rw [List.getElem?_set_ne fun hij => hjik (.inl hij.symm)]
      exact hj
  · intro l hl x hx y hy
    obtain rfl | hl := hold l hl
    · -- through the new channel
      have hends : Weak st'.g.HasEdge u v := hvia ▸ weak_via_ends
      have hconn : ∀ z ∈ srcs ++ snks, Weak st'.g.HasEdge z u := by
        intro z hz
        rw [List.mem_append] at hz
        obtain hz | hz := hz
        · exact (h.connected srcs hsrcs_mem z hz u hu).mono hkept
        · exact ((h.connected snks hsnks_mem z hz v hv).mono hkept).trans hends.symm
      exact (hconn x hx).trans (hconn y hy).symm
    · exact (h.connected l hl x hx y hy).mono hkept
  · refine ⟨relabel f u c v, ?_, ?_⟩
    · rw [hvia]
      exact hlabels.via hfresh huc hvc
    · refine hsep.join hsrcs hsnks hu hv fun l hl x hx => ?_
      have := h.below l hl x hx
      omega
  · intro l hl x hx
    rw [length_addChannel hadd]
    obtain rfl | hl := hold l hl
    · rw [List.mem_append] at hx
      obtain hx | hx := hx
      · exact Nat.lt_succ_of_lt (h.below srcs hsrcs_mem x hx)
      · exact Nat.lt_succ_of_lt (h.below snks hsnks_mem x hx)
    · exact Nat.lt_succ_of_lt (h.below l hl x hx)

theorem Ascending.joining {dag : Bool} {g : Graph} {compNum : Nat} {compMap : Nat → Nat} (h : Ascending dag g)
    (hcomp : g.Components compNum compMap) : Joining dag (componentActors g compNum compMap) g where
  closed := h.closed
  ranked := by
    intro hdag
    obtain ⟨r, _, hr⟩ := h.ranked hdag
    exact ⟨r, hr⟩
  covered := by
    intro v hv
    have hlen : compMap v < (componentActors g compNum compMap).length := by
      simpa [componentActors] using hcomp.lt v hv.lt
    refine ⟨_, List.getElem_mem hlen, ?_⟩
    exact (mem_componentActors (List.getElem?_eq_getElem hlen)).mpr ⟨hv, rfl⟩
  connected := by
    intro l hl u hu v hv
    obtain ⟨k, hk⟩ := List.mem_iff_getElem?.mp hl
    obtain ⟨hu, hku⟩ := (mem_componentActors hk).mp hu
    obtain ⟨hv, hkv⟩ := (mem_componentActors hk).mp hv
    exact (hcomp.same u hu.lt v hv.lt).mp (hku.trans hkv.symm)
  separated := by
    refine ⟨compMap, ?_, ?_⟩
    · intro x y hxy
      obtain ⟨hx, hy⟩ := h.closed.hasEdge_lt hxy
      exact (hcomp.same x hx y hy).mpr (.single (.inl hxy))
    · intro i k a b hik ha hb u hu v hv heq
      have hi := ((mem_componentActors ha).mp hu).2
      have hk := ((mem_componentActors hb).mp hv).2
      exact hik (hi.symm.trans (heq.trans hk))
  below := by
    intro l hl v hv
    obtain ⟨k, hk⟩ := List.mem_iff_getElem?.mp hl
    exact ((mem_componentActors hk).mp hv).1.lt

theorem Joining.weaklyConnected {dag : Bool} {components : List (List Nat)} {g : Graph}
    (h : Joining dag components g) (hone : components.length ≤ 1) : g.WeaklyConnected := by
  intro u v hu hv
  obtain ⟨a, ha, hua⟩ := h.covered u hu
  obtain ⟨b, hb, hvb⟩ := h.covered v hv
  have hab : a = b := by
    obtain ⟨i, hi⟩ := List.mem_iff_getElem?.mp ha
    obtain ⟨k, hk⟩ := List.mem_iff_getElem?.mp hb
    have hil := (List.getElem?_eq_some_iff.mp hi).1
    have hkl := (List.getElem?_eq_some_iff.mp hk).1
    obtain rfl : i = k := by omega
    exact Option.some.inj (hi.symm.trans hk)
  subst hab
  exact h.connected a ha u hua v hvb

theorem ensures_connectComponents {dag : Bool} {connected_components : Graph → Nat × (Nat → Nat)} {pre : String}
    {st : Generator} (h : Ascending dag st.g)
    (hcomp : st.g.Components (connected_components st.g).1 (connected_components st.g).2) :
    Ensures (connectComponents connected_components pre st) fun st' =>
      st'.g.WeaklyConnected ∧ st'.g.Closed ∧ (dag = true → Ranked st'.g.HasEdge) := by
  have hjoining := h.joining hcomp
  unfold connectComponents
  apply ensures_ite
  · intro _
    refine (ensures_joinComponents (keptByJoins_joining dag) _ _ _ hjoining (by simp [componentActors])).mono ?_
    intro st' hst
    obtain ⟨components, hone, h'⟩ := hst
    exact ⟨h'.weaklyConnected hone, h'.closed, h'.ranked⟩
  · intro hone
    exact ensures_pure ⟨hjoining.weaklyConnected (by simp [componentActors]; omega), hjoining.closed,
      hjoining.ranked⟩

/-! ## Behind the join -/

/-- With `dag` the graph is ranked, and no edge leads to the source. -/
structure Sourcing (o : Options) (vdSource : Nat) (g : Graph) : Prop where
  closed : g.Closed
  ranked : o.createDAG = true → Ranked g.HasEdge
  source : o.sourceActor = true → vdSource < g.vertices.length ∧ ∀ x, ¬ g.HasEdge x vdSource

theorem keptBySources_sourcing (o : Options) (vdSource n : Nat) (hn : o.sourceActor = true → vdSource = n) :
    KeptBySources o vdSource fun _ _ st => Sourcing o n st.g where
  channel := by
    intro _ _ st v c st' h hsource hv hact hadd
    obtain rfl := hn hsource
    obtain ⟨_, _, _, _, _, _, _, _, hadded⟩ := channelAdded hadd
    obtain ⟨hlt, hno⟩ := h.source hsource
    have hvlt := hact.lt
    have hfresh := hadded.fresh
    refine ⟨hadded.closed h.closed, ?_, ?_⟩
    · intro hdag
      rw [hadded.hasEdge_via]
      refine (h.ranked hdag).via (h.closed.fresh (Nat.le_of_eq hfresh.symm)) (by omega) (by omega) ?_
      intro hpath
      -- the last edge of a path to the source
      obtain heq | ⟨x, _, hx⟩ := hpath.cases_tail
      · exact hv heq.symm
      · exact hno x hx
    · intro _
      refine ⟨by rw [length_addChannel hadd]; omega, ?_⟩
      intro x hx
      obtain hx | ⟨_, hx⟩ | ⟨_, hx⟩ := hadded.hasEdge.mp hx
      · exact hno x hx
      · omega
      · exact hv (List.mem_singleton.mp hx).symm
  input := by
    intro _ _ st v h _ hv hact
    have hvlt := hact.lt
    have hedge : (st.addInput o.prefixOf v).g.HasEdge = fun x y => st.g.HasEdge x y ∨
        (x = st.g.vertices.length ∧ y = v) := by
      funext x y
      exact propext Graph.hasEdge_addEdge
    refine ⟨h.closed.addVertex.addEdge (by simp) hact.addVertex.lt, ?_, ?_⟩
    · intro hdag
      rw [hedge]
      exact (h.ranked hdag).before (h.closed.fresh (Nat.le_refl _)) (by omega)
    · intro hsource
      obtain rfl := hn hsource
      obtain ⟨hlt, hno⟩ := h.source hsource
      refine ⟨?_, ?_⟩
      · simp only [addInput, Graph.vertices_addEdge, Graph.vertices_addVertex, List.length_append]
        omega
      · intro x hx
        rw [hedge] at hx
        obtain hx | ⟨_, hx⟩ := hx
        · exact hno x hx
        · exact hv hx.symm
  output := by
    intro _ _ st v h _ hact
    have hvlt := hact.lt
    have hedge : (st.addOutput o.prefixOf v).g.HasEdge = fun x y => st.g.HasEdge x y ∨
        (x = v ∧ y = st.g.vertices.length) := by
      funext x y
      exact propext Graph.hasEdge_addEdge
    refine ⟨h.closed.addVertex.addEdge hact.addVertex.lt (by simp), ?_, ?_⟩
    · intro hdag
      rw [hedge]
      exact (h.ranked hdag).behind (h.closed.fresh (Nat.le_refl _)) (by omega)
    · intro hsource
      obtain ⟨hlt, hno⟩ := h.source hsource
      refine ⟨?_, ?_⟩
      · simp only [addOutput, Graph.vertices_addEdge, Graph.vertices_addVertex, List.length_append]
        omega
      · intro x hx
        rw [hedge] at hx
        obtain hx | ⟨_, hx⟩ := hx
        · exact hno x hx
        · omega

theorem ensures_addSources_ranked {o : Options} {st : Generator} (hclosed : st.g.Closed)
    (hranked : o.createDAG = true → Ranked st.g.HasEdge) :
    Ensures (addSources o st) fun st' => o.createDAG = true → Ranked st'.g.HasEdge := by
  refine (ensures_addSources (fun vdSource hsource => keptBySources_sourcing o vdSource _ hsource) ?_).mono ?_
  · split
    · refine ⟨hclosed.addVertex, hranked, fun _ => ⟨by simp [addActor], ?_⟩⟩
      exact fun x => (hclosed.fresh (Nat.le_refl _) x).1
    · rename_i hno
      exact ⟨hclosed, hranked, fun hsource => absurd hsource hno⟩
  · intro st' h
    obtain ⟨_, _, h⟩ := h
    exact h.ranked

/-- Whatever is drawn, the graph is weakly connected after the join, and with `create-dag`
it has no cycle then nor with sources, inputs and outputs added. -/
theorem connected_acyclic (connected_components : Graph → Nat × (Nat → Nat)) (o : Options) (ds ds₁ ds₂ : List Nat)
    (st st₁ : Generator) (hclusters : clusterGraph o ds = some (st, ds₁))
    (hcomp : st.g.Components (connected_components st.g).1 (connected_components st.g).2)
    (hjoin : connectComponents connected_components o.prefixOf st ds₁ = some (st₁, ds₂)) :
    st₁.g.WeaklyConnected ∧ (o.createDAG = true → st₁.g.Acyclic ∧
      ∀ st₂ ds₃, addSources o st₁ ds₂ = some (st₂, ds₃) → st₂.g.Acyclic) := by
  have hasc := ensures_clusterGraph (kept_ascending o.createDAG) (ascending_start _) _ _ _ hclusters
  obtain ⟨hconn, hclosed, hranked⟩ := ensures_connectComponents hasc hcomp _ _ _ hjoin
  refine ⟨hconn, ?_⟩
  intro hdag
  refine ⟨(hranked hdag).acyclic, ?_⟩
  intro st₂ ds₃ hsources
  exact (ensures_addSources_ranked hclosed hranked _ _ _ hsources hdag).acyclic

theorem components_of_no_edges {g : Graph} (h : g.edges = []) : g.Components g.vertices.length id where
  lt v hv := hv
  same := by
    intro u _ v _
    constructor
    · intro heq
      rw [show u = v from heq]
      exact .refl
    · intro hweak
      induction hweak with
      | refl => rfl
      | tail _ hstep ih =>
        obtain ⟨e, he, _⟩ | ⟨e, he, _⟩ := hstep
        all_goals
          rw [h] at he
          cases he

/-- Two actors without channels are joined and get a source. -/
theorem connected_acyclic_two : ∃ st st₁ ds₁ ds₂, clusterGraph ⟨none, [("a", 1)], true, false, false, true, true, true⟩
      [2, 2, 1, 1, 2, 0, 1, 3, 0, 1, 0, 0] = some (st, ds₁) ∧
    connectComponents (fun g => (g.vertices.length, id)) "" st ds₁ = some (st₁, ds₂) ∧
    st.g.edges.length = 0 ∧ st₁.g.edges.length = 2 ∧ st₁.g.WeaklyConnected ∧ st₁.g.Acyclic := by
  have hrun : ((clusterGraph ⟨none, [("a", 1)], true, false, false, true, true, true⟩
      [2, 2, 1, 1, 2, 0, 1, 3, 0, 1, 0, 0]).bind fun r =>
        (connectComponents (fun g => (g.vertices.length, id)) "" r.1 r.2).map fun r' =>
          (r.1.g.edges.length, r'.1.g.edges.length)) = some (0, 2) := by
    decide +kernel
  obtain ⟨⟨st, ds₁⟩, hclusters, hrun⟩ := Option.bind_eq_some_iff.mp hrun
  obtain ⟨⟨st₁, ds₂⟩, hjoin, hlen⟩ := Option.map_eq_some_iff.mp hrun
  obtain ⟨hlen, hlen₁⟩ := Prod.mk.inj hlen
  have hcomp := components_of_no_edges (List.length_eq_zero_iff.mp hlen)
  have h := connected_acyclic (fun g => (g.vertices.length, id)) _ _ _ _ _ _ hclusters hcomp hjoin
  exact ⟨st, st₁, ds₁, ds₂, hclusters, hjoin, hlen, hlen₁, h.1, (h.2 rfl).1⟩

end Generator

end SysteMoC.SNG
