import SysteMoC.Generator
import SysteMoC.Pointwise

/-!
# Invariants of the generator

One rule for each phase: what its channels keep holds after it. The rules also give what
the phase promises about the ends of its channels.
-/

namespace SysteMoC.SNG

open Drawing

namespace Generator

theorem ensures_ite {α : Type} {P : α → Prop} {p : Prop} [Decidable p] {m m' : Drawing α}
    (h : p → Ensures m P) (h' : ¬ p → Ensures m' P) : Ensures (if p then m else m') P := by
  split
  · exact h ‹_›
  · exact h' ‹_›

theorem addChannel_eq {st st' : Generator} {pre : String} {src c : Nat} {snks : List Nat}
    (h : st.addChannel pre src snks = some (c, st')) :
    ∃ repSrc repSnks prod cons, st.g.repCount? src = some repSrc ∧
      snks.mapM st.g.repCount? = some repSnks ∧
      div? (repSnks.foldl Nat.lcm repSrc) repSrc = some prod ∧
      repSnks.mapM (div? (repSnks.foldl Nat.lcm repSrc)) = some cons ∧
      c = st.g.vertices.length ∧
      st'.g = (snks.zip cons).foldl (addConsumer c)
        ((st.g.addVertex ⟨pre ++ "c" ++ toString (st.fifoCount + 1),
          .fifo unknown (prod + cons.foldl max 0 - 1) 0⟩).addEdge src c
            ⟨"o" ++ toString ((st.g.outEdges src).length + 1), unknown, prod⟩) := by
  obtain ⟨repSrc, hsrc, h⟩ := Option.bind_eq_some_iff.mp h
  obtain ⟨repSnks, hsnks, h⟩ := Option.bind_eq_some_iff.mp h
  obtain ⟨prod, hprod, h⟩ := Option.bind_eq_some_iff.mp h
  obtain ⟨cons, hcons, h⟩ := Option.bind_eq_some_iff.mp h
  cases h
  exact ⟨repSrc, repSnks, prod, cons, hsrc, hsnks, hprod, hcons, rfl, rfl⟩

@[simp] theorem vertices_addConsumers (c : Nat) (l : List (Nat × Nat)) (g : Graph) :
    (l.foldl (addConsumer c) g).vertices = g.vertices := by
  induction l generalizing g with
  | nil => rfl
  | cons x l ih => rw [List.foldl_cons, ih]; rfl

theorem length_addChannel {st st' : Generator} {pre : String} {src c : Nat} {snks : List Nat}
    (h : st.addChannel pre src snks = some (c, st')) :
    st'.g.vertices.length = st.g.vertices.length + 1 := by
  obtain ⟨_, _, _, _, _, _, _, _, _, hg⟩ := addChannel_eq h
  rw [hg]
  simp

theorem repCount?_addChannel {st st' : Generator} {pre : String} {src c : Nat} {snks : List Nat}
    (h : st.addChannel pre src snks = some (c, st')) {v : Nat} (hv : v < st.g.vertices.length) :
    st'.g.repCount? v = st.g.repCount? v := by
  obtain ⟨_, _, _, _, _, _, _, _, _, hg⟩ := addChannel_eq h
  rw [hg]
  unfold Graph.repCount?
  simp only [vertices_addConsumers, Graph.vertices_addEdge, Graph.vertices_addVertex]
  rw [List.getElem?_append_left hv]

theorem IsActor.addChannel {st st' : Generator} {pre : String} {src c v : Nat} {snks : List Nat}
    (h : st.addChannel pre src snks = some (c, st')) (hv : st.g.IsActor v) : st'.g.IsActor v := by
  unfold Graph.IsActor
  rw [repCount?_addChannel h hv.lt]
  exact hv

theorem edges_addConsumers (c : Nat) (l : List (Nat × Nat)) (g : Graph) :
    ∃ es : List Edge, (l.foldl (addConsumer c) g).edges = g.edges ++ es ∧ (∀ e ∈ es, e.source = c) ∧
      es.map (fun e => (e.target, e.tokens)) = l := by
  induction l generalizing g with
  | nil => exact ⟨[], by simp⟩
  | cons x l ih =>
    obtain ⟨es, hes, hsrc, hmap⟩ := ih (addConsumer c g x)
    refine ⟨⟨⟨"i" ++ toString ((g.inEdges x.1).length + 1), unknown, x.2⟩, c, x.1⟩ :: es, ?_, ?_, ?_⟩
    · rw [List.foldl_cons, hes]
      simp [addConsumer]
    · simpa using hsrc
    · simp [hmap]

/-- What a new channel does to the graph. -/
structure ChannelAdded (g g' : Graph) (src c : Nat) (snks : List Nat) (prod : Nat) (cons : List Nat) : Prop where
  fresh : c = g.vertices.length
  source : g.IsActor src
  sinks : ∀ v ∈ snks, g.IsActor v
  vertices : ∃ name, g'.vertices = g.vertices ++ [⟨name, .fifo unknown (prod + cons.foldl max 0 - 1) 0⟩]
  edges : ∃ name es, g'.edges = g.edges ++ ⟨⟨name, unknown, prod⟩, src, c⟩ :: es ∧ (∀ e ∈ es, e.source = c) ∧
    es.map (·.target) = snks ∧ es.map (·.tokens) = cons

theorem ChannelAdded.closed {g g' : Graph} {src c prod : Nat} {snks cons : List Nat}
    (h : ChannelAdded g g' src c snks prod cons) (hclosed : g.Closed) : g'.Closed := by
  obtain ⟨name, hname⟩ := h.vertices
  obtain ⟨name', es, hes, hessrc, htgt, _⟩ := h.edges
  have hfresh := h.fresh
  have hsrc := h.source.lt
  intro e he
  rw [hname, List.length_append, List.length_singleton]
  rw [hes] at he
  simp only [List.mem_append, List.mem_cons] at he
  obtain he | rfl | he := he
  · have := hclosed e he
    omega
  · simp only
    omega
  · have hlt := (h.sinks e.target (htgt ▸ List.mem_map_of_mem he)).lt
    have := hessrc e he
    omega

theorem channelAdded {st st' : Generator} {pre : String} {src c : Nat} {snks : List Nat}
    (h : st.addChannel pre src snks = some (c, st')) :
    ∃ repSrc repSnks prod cons, st.g.repCount? src = some repSrc ∧
      snks.mapM st.g.repCount? = some repSnks ∧
      div? (repSnks.foldl Nat.lcm repSrc) repSrc = some prod ∧
      repSnks.mapM (div? (repSnks.foldl Nat.lcm repSrc)) = some cons ∧
      ChannelAdded st.g st'.g src c snks prod cons := by
  obtain ⟨repSrc, repSnks, prod, cons, hsrc, hsnks, hprod, hcons, hc, hg⟩ := addChannel_eq h
  have hall := Pointwise.forall₂_of_mapM hsnks
  have hlen : snks.length = cons.length :=
    hall.length_eq.trans (Pointwise.forall₂_of_mapM hcons).length_eq
  obtain ⟨es, hes, hessrc, hmap⟩ := edges_addConsumers c (snks.zip cons)
    ((st.g.addVertex ⟨pre ++ "c" ++ toString (st.fifoCount + 1),
      .fifo unknown (prod + cons.foldl max 0 - 1) 0⟩).addEdge src c
        ⟨"o" ++ toString ((st.g.outEdges src).length + 1), unknown, prod⟩)
  have hedges : st'.g.edges = st.g.edges ++
      ⟨⟨"o" ++ toString ((st.g.outEdges src).length + 1), unknown, prod⟩, src, c⟩ :: es := by
    rw [hg, hes, Graph.edges_addEdge, Graph.edges_addVertex, List.append_assoc, List.singleton_append]
  refine ⟨repSrc, repSnks, prod, cons, hsrc, hsnks, hprod, hcons, hc, ?_, ?_, ?_, ?_⟩
  · exact Option.isSome_iff_exists.mpr ⟨repSrc, hsrc⟩
  · intro v hv
    obtain ⟨r, _, hr⟩ := (Pointwise.forall₂_mem hall).1 v hv
    exact Option.isSome_iff_exists.mpr ⟨r, hr⟩
  · rw [hg, vertices_addConsumers]
    exact ⟨_, rfl⟩
  · refine ⟨_, es, hedges, hessrc, ?_, ?_⟩
    · calc es.map (·.target) = (es.map fun e => (e.target, e.tokens)).map Prod.fst := by simp
        _ = snks := by rw [hmap, List.map_fst_zip (by omega)]
    · calc es.map (·.tokens) = (es.map fun e => (e.target, e.tokens)).map Prod.snd := by simp
        _ = cons := by rw [hmap, List.map_snd_zip (by omega)]

/-! ## Clusters -/

/-- `I` stays true when actors and channels are added; with `dag` the channels go to
younger actors. -/
structure Kept (dag : Bool) (I : Generator → Prop) : Prop where
  actor : ∀ st name rep, I st → I (st.addActor name rep)
  channel : ∀ st pre src snks c st', I st → snks ≠ [] → (dag = true → ∀ v ∈ snks, src < v) →
    st.addChannel pre src snks = some (c, st') → I st'

theorem Kept.grown {dag : Bool} {I : Generator → Prop} (hI : Kept dag I) (n : Nat) :
    Kept dag fun st => I st ∧ n ≤ st.g.vertices.length where
  actor st name rep h := by
    refine ⟨hI.actor st name rep h.1, ?_⟩
    simp only [addActor, Graph.vertices_addVertex, List.length_append]
    omega
  channel st pre src snks c st' h hne hdag hadd := by
    refine ⟨hI.channel st pre src snks c st' h.1 hne hdag hadd, ?_⟩
    rw [length_addChannel hadd]
    omega

structure Within (lo hi : Nat) (ci : ClusterInformation) : Prop where
  sorted : ci.vdActors.Pairwise (· < ·)
  range : ∀ v ∈ ci.vdActors, lo ≤ v ∧ v < hi
  inputs : ci.vdInputs ⊆ ci.vdActors
  outputs : ci.vdOutputs ⊆ ci.vdActors

theorem Within.mono {lo lo' hi hi' : Nat} {ci : ClusterInformation} (h : Within lo hi ci) (hlo : lo' ≤ lo)
    (hhi : hi ≤ hi') : Within lo' hi' ci := by
  refine { h with range := ?_ }
  intro v hv
  have := h.range v hv
  omega

section
variable {dag : Bool} {I : Generator → Prop}

theorem ensures_drawSinks {l : List Nat} (fuel : Nat) (vdSnks vdMulticast : List Nat) (m d : Int)
    (hsnks : vdSnks ⊆ l) (hmulti : vdMulticast ⊆ l) :
    Ensures (drawSinks fuel vdSnks vdMulticast m d) fun r => r.1 ≠ [] ∧ r.1 ⊆ l ∧ r.2.1 ⊆ l := by
  induction fuel generalizing vdSnks vdMulticast m d with
  | zero =>
    apply ensures_ofOption
    intro _ h
    cases h
  | succ fuel ih =>
    unfold drawSinks
    refine ensures_bind ensures_below fun i _ => ?_
    refine ensures_bind (P := (· ∈ l)) ?_ fun v hv => ?_
    · apply ensures_ofOption
      intro v hv
      exact hsnks (List.mem_of_getElem? hv)
    have hmulti' : vdMulticast ++ [v] ⊆ l := by
      apply List.append_subset.mpr
      exact ⟨hmulti, by simpa using hv⟩
    have hsnks' : vdSnks.eraseIdx i ⊆ l := fun x hx => hsnks (List.mem_of_mem_eraseIdx hx)
    apply ensures_ite
    · intro _
      exact ih _ _ _ _ hsnks' hmulti'
    · intro _
      apply ensures_pure
      exact ⟨by simp, hmulti', hsnks'⟩

theorem ensures_addChannels (hI : Kept dag I) {pre : String} {src : Nat} (fuel : Nat) (vdSnks : List Nat)
    (m d : Int) (st : Generator) (hst : I st) (hdag : dag = true → ∀ v ∈ vdSnks, src < v) :
    Ensures (addChannels pre src fuel vdSnks m d st) I := by
  induction fuel generalizing vdSnks m d st with
  | zero => exact ensures_pure hst
  | succ fuel ih =>
    unfold addChannels
    apply ensures_ite
    · intro _
      refine ensures_bind (ensures_drawSinks _ _ _ _ _ (List.Subset.refl _) (List.nil_subset _)) ?_
      intro ⟨multi, snks, m, d⟩ ⟨hne, hmulti, hsnks⟩
      refine ensures_bind (P := fun r => I r.2) ?_ ?_
      · apply ensures_ofOption
        intro ⟨c, st'⟩ hadd
        exact hI.channel _ _ _ _ _ _ hst hne (fun h v hv => hdag h v (hmulti hv)) hadd
      · intro ⟨_, st'⟩ hst'
        exact ih _ _ _ _ hst' fun h v hv => hdag h v (hsnks hv)
    · intro _
      exact ensures_pure hst

theorem ensures_addClusterActor (hI : Kept dag I) {lo : Nat} (name : String) (inputs firstOutput : Nat)
    (s : Growing) (j : Nat) (hs : I s.st ∧ lo ≤ s.st.g.vertices.length ∧
      Within lo s.st.g.vertices.length s.ci) :
    Ensures (addClusterActor name inputs firstOutput s j) fun s' =>
      I s'.st ∧ lo ≤ s'.st.g.vertices.length ∧ Within lo s'.st.g.vertices.length s'.ci := by
  obtain ⟨hst, hlo, hci⟩ := hs
  unfold addClusterActor
  refine ensures_bind (P := fun _ => True) ensures_true fun rep _ => ?_
  have hst' := hI.actor s.st (name ++ ".a" ++ toString (j + 1)) rep hst
  have hlen : (s.st.addActor (name ++ ".a" ++ toString (j + 1)) rep).g.vertices.length =
      s.st.g.vertices.length + 1 := by simp [addActor]
  have hlo' : lo ≤ (s.st.addActor (name ++ ".a" ++ toString (j + 1)) rep).g.vertices.length := by
    rw [hlen]
    omega
  have hsorted : (s.ci.vdActors ++ [s.st.g.vertices.length]).Pairwise (· < ·) := by
    simp only [List.pairwise_append, List.pairwise_singleton, List.mem_singleton, true_and]
    refine ⟨hci.sorted, ?_⟩
    intro a ha b hb
    rw [hb]
    exact (hci.range a ha).2
  have hrange : ∀ v ∈ s.ci.vdActors ++ [s.st.g.vertices.length],
      lo ≤ v ∧ v < s.st.g.vertices.length + 1 := by
    intro v hv
    simp only [List.mem_append, List.mem_singleton] at hv
    obtain hv | rfl := hv
    · have := hci.range v hv
      omega
    · omega
  have hinputs : (if j < inputs then s.ci.vdInputs ++ [s.st.g.vertices.length] else s.ci.vdInputs) ⊆
      s.ci.vdActors ++ [s.st.g.vertices.length] := by
    split
    · exact List.append_subset.mpr ⟨List.subset_append_of_subset_left _ hci.inputs,
        List.subset_append_right _ _⟩
    · exact List.subset_append_of_subset_left _ hci.inputs
  have houtputs := List.subset_append_of_subset_left [s.st.g.vertices.length] hci.outputs
  apply ensures_ite
  · intro _
    apply ensures_pure
    refine ⟨hst', hlo', ?_⟩
    rw [hlen]
    exact ⟨hsorted, hrange, hinputs, List.append_subset.mpr ⟨houtputs, List.subset_append_right _ _⟩⟩
  · intro _
    refine ensures_bind (P := fun _ => True) ensures_true fun _ _ => ?_
    refine ensures_bind (P := fun _ => True) ensures_true fun _ _ => ?_
    apply ensures_pure
    refine ⟨hst', hlo', ?_⟩
    rw [hlen]
    exact ⟨hsorted, hrange, hinputs, houtputs⟩

theorem ensures_connectClusterActor (hI : Kept dag I) {lo hi inputs : Nat} {pre : String} {self : Bool}
    {ci : ClusterInformation} (hci : Within lo hi ci) (s : Growing) (j : Nat) (hs : I s.st ∧ s.ci = ci) :
    Ensures (connectClusterActor pre dag self inputs s j) fun s' => I s'.st ∧ s'.ci = ci := by
  obtain ⟨hst, rfl⟩ := hs
  unfold connectClusterActor
  refine ensures_bind (ensures_ofOption fun v hv => hv) fun src hsrc => ?_
  refine ensures_bind (ensures_addChannels hI _ _ _ _ _ hst ?_) fun st' hst' => ensures_pure ⟨hst', rfl⟩
  -- in the list of actors the sinks are behind the source
  intro hdag v hv
  rw [if_pos hdag] at hv
  obtain ⟨i, hi⟩ := List.mem_iff_getElem?.mp hv
  rw [List.getElem?_drop] at hi
  obtain ⟨hj, rfl⟩ := List.getElem?_eq_some_iff.mp hsrc
  obtain ⟨hk, rfl⟩ := List.getElem?_eq_some_iff.mp hi
  exact List.pairwise_iff_getElem.mp hci.sorted _ _ hj hk (by omega)

theorem ensures_generateCluster {o : Options} (hI : Kept o.createDAG I) (type : String)
    (count maxActors : Nat) {st : Generator} (hst : I st) :
    Ensures (generateCluster o type count maxActors st) fun r =>
      I r.2 ∧ Within st.g.vertices.length r.2.g.vertices.length r.1 := by
  unfold generateCluster
  refine ensures_bind (P := fun _ => True) ensures_true fun _ _ => ?_
  refine ensures_bind (P := fun _ => True) ensures_true fun _ _ => ?_
  refine ensures_bind (P := fun _ => True) ensures_true fun _ _ => ?_
  refine ensures_bind (P := fun _ => True) ensures_true fun _ _ => ?_
  have hstart : Within st.g.vertices.length st.g.vertices.length ⟨[], [], []⟩ :=
    ⟨List.Pairwise.nil, by simp, by simp, by simp⟩
  refine ensures_bind (ensures_foldlM (fun j _ s hs => ensures_addClusterActor hI _ _ _ s j hs)
    ⟨hst, Nat.le_refl _, hstart⟩) fun s hs => ?_
  obtain ⟨hs, _, hci⟩ := hs
  refine ensures_bind (ensures_foldlM (fun j _ s hs =>
    ensures_connectClusterActor (hI.grown _) hci s j hs) ⟨⟨hs, Nat.le_refl _⟩, rfl⟩) fun s' hs' => ?_
  obtain ⟨⟨hs', hlen⟩, hci'⟩ := hs'
  apply ensures_pure
  refine ⟨hs', ?_⟩
  rw [hci']
  exact hci.mono (Nat.le_refl _) hlen

/-! ## All clusters -/

/-- Clusters are numbered upwards one after the other. -/
def Ordered (n : Nat) (clusterMap : List ClusterInformation) : Prop :=
  clusterMap.Pairwise (fun a b => ∀ u ∈ a.vdActors, ∀ v ∈ b.vdActors, u < v) ∧
    ∀ ci ∈ clusterMap, Within 0 n ci

theorem Ordered.append {lo hi : Nat} {clusterMap : List ClusterInformation} {ci : ClusterInformation}
    (h : Ordered lo clusterMap) (hci : Within lo hi ci) (hle : lo ≤ hi) :
    Ordered hi (clusterMap ++ [ci]) := by
  refine ⟨?_, ?_⟩
  · simp only [List.pairwise_append, List.pairwise_singleton, List.mem_singleton, true_and]
    refine ⟨h.1, ?_⟩
    intro a ha b hb u hu v hv
    subst hb
    have hlt := ((h.2 a ha).range u hu).2
    have hle := (hci.range v hv).1
    omega
  · intro a ha
    simp only [List.mem_append, List.mem_singleton] at ha
    obtain ha | rfl := ha
    · exact (h.2 a ha).mono (Nat.le_refl _) hle
    · exact hci.mono (Nat.zero_le _) (Nat.le_refl _)

/-- What holds between two clusters. -/
def Clustered (I : Generator → Prop) (clusterMap : List ClusterInformation) (st : Generator) : Prop :=
  I st ∧ Ordered st.g.vertices.length clusterMap

theorem ensures_appendCluster {o : Options} (hI : Kept o.createDAG I) (type : String) (count maxActors : Nat)
    {clusterMap : List ClusterInformation} {st : Generator} (h : Clustered I clusterMap st) :
    Ensures (generateCluster o type count maxActors st) fun r => Clustered I (clusterMap ++ [r.1]) r.2 := by
  have hgen := ensures_generateCluster (hI.grown st.g.vertices.length) type count maxActors
    ⟨h.1, Nat.le_refl _⟩
  refine hgen.mono fun r hr => ?_
  exact ⟨hr.1.1, h.2.append hr.2 hr.1.2⟩

theorem ensures_selectRandomly {o : Options} (hI : Kept o.createDAG I) (endWeight fuel actorCount : Nat)
    (m : List (Nat × ClusterOptions)) (clusterMap : List ClusterInformation) (st : Generator)
    (h : Clustered I clusterMap st) :
    Ensures (selectRandomly o endWeight fuel actorCount m clusterMap st) fun r => Clustered I r.1 r.2 := by
  induction fuel generalizing actorCount m clusterMap st with
  | zero => exact ensures_pure h
  | succ fuel ih =>
    unfold selectRandomly
    apply ensures_ite
    · intro _
      refine ensures_bind (P := fun _ => True) ensures_true fun _ _ => ?_
      refine ensures_bind (P := fun _ => True) ensures_true fun _ _ => ?_
      refine ensures_bind (P := fun _ => True) ensures_true fun ⟨_, _⟩ _ => ?_
      exact ensures_bind (ensures_appendCluster hI _ _ _ h) fun ⟨_, _⟩ h' => ih _ _ _ _ h'
    · intro _
      exact ensures_pure h

theorem ensures_selectType {o : Options} (hI : Kept o.createDAG I) (type : String) (left count actorCount : Nat)
    (clusterMap : List ClusterInformation) (st : Generator) (h : Clustered I clusterMap st) :
    Ensures (selectType o type left count actorCount clusterMap st) fun r => Clustered I r.2.1 r.2.2 := by
  induction left generalizing count actorCount clusterMap st with
  | zero => exact ensures_pure h
  | succ left ih =>
    unfold selectType
    apply ensures_ite
    · intro _
      exact ensures_bind (ensures_appendCluster hI _ _ _ h) fun ⟨_, _⟩ h' => ih _ _ _ _ h'
    · intro _
      exact ensures_pure h

theorem ensures_generateClusters {o : Options} (hI : Kept o.createDAG I) (hstart : I start) :
    Ensures (generateClusters o) fun r => Clustered I r.1 r.2 := by
  have h : Clustered I [] start := ⟨hstart, List.Pairwise.nil, by simp⟩
  unfold generateClusters
  refine ensures_bind (P := fun _ => True) ensures_true fun _ _ => ?_
  refine ensures_bind (P := fun _ => True) ensures_true fun actorCount _ => ?_
  apply ensures_ite
  · intro _
    exact ensures_selectRandomly hI _ _ _ _ _ _ h
  · intro _
    unfold selectInOrder
    refine ensures_bind (P := fun r => Clustered I r.2.1 r.2.2) ?_ fun ⟨_, _, _⟩ h' => ensures_pure h'
    apply ensures_foldlM
    · intro ⟨_, options⟩ _ ⟨actorCount, clusterMap, st⟩ hs
      exact ensures_selectType hI _ _ _ _ _ _ hs
    · exact h

/-! ## Channels between clusters -/

theorem ensures_drawCandidates {others : List ClusterInformation} (outDegree : Nat) (ci : ClusterInformation)
    (hci : ci ∈ others) (vdSnks : List Nat) (h : vdSnks ⊆ others.flatMap (·.vdActors)) :
    Ensures (drawCandidates outDegree vdSnks ci) (· ⊆ others.flatMap (·.vdActors)) := by
  unfold drawCandidates
  apply ensures_ite
  · intro _
    exact ensures_pure h
  · intro _
    apply ensures_ite
    · intro _
      exact ensures_pure h
    · intro _
      refine ensures_bind (P := fun _ => True) ensures_true fun _ _ => ?_
      refine ensures_bind (ensures_ofOption fun v hv => hv) fun v hv => ?_
      apply ensures_pure
      apply List.append_subset.mpr
      refine ⟨h, ?_⟩
      intro x hx
      rw [List.mem_singleton.mp hx]
      exact List.mem_flatMap_of_mem hci (List.mem_of_mem_filter (List.mem_of_getElem? hv))

theorem ensures_fillSinks {others : List ClusterInformation} (outDegree fuel : Nat) (vdSnks : List Nat)
    (h : vdSnks ⊆ others.flatMap (·.vdActors)) :
    Ensures (fillSinks outDegree others fuel vdSnks) (· ⊆ others.flatMap (·.vdActors)) := by
  induction fuel generalizing vdSnks with
  | zero => exact ensures_pure h
  | succ fuel ih =>
    unfold fillSinks
    apply ensures_ite
    · intro _
      refine ensures_bind (ensures_foldlM (fun ci hci s hs => ensures_drawCandidates outDegree ci hci s hs)
        h) fun snks hsnks => ?_
      apply ensures_ite
      · intro _
        exact ensures_pure hsnks
      · intro _
        exact ih _ hsnks
    · intro _
      exact ensures_pure h

theorem ensures_connectCluster {o : Options} (hI : Kept o.createDAG I) {n : Nat}
    {clusterMap : List ClusterInformation} (hord : Ordered n clusterMap) (srcCluster : Nat) (st : Generator)
    (hst : I st) : Ensures (connectCluster o clusterMap st srcCluster) I := by
  unfold connectCluster
  refine ensures_bind (ensures_ofOption fun ci hci => hci) fun ci hci => ?_
  refine ensures_bind (P := fun _ => True) ensures_true fun ⟨_, _⟩ _ => ?_
  refine ensures_bind (P := fun r => I r.1) ?_ fun ⟨_, _⟩ h => ensures_pure h
  apply ensures_foldlM
  · intro src hsrc s hs
    unfold connectOutput
    refine ensures_bind (ensures_fillSinks _ _ _ ?_) fun snks hsnks => ?_
    · -- inputs are actors of their clusters
      intro v hv
      obtain ⟨other, hother, hv⟩ := List.mem_flatMap.mp hv
      refine List.mem_flatMap_of_mem hother ?_
      have hmem : other ∈ clusterMap := by
        split at hother
        · exact List.mem_of_mem_drop hother
        · exact List.mem_of_mem_eraseIdx hother
      exact (hord.2 other hmem).inputs hv
    refine ensures_bind (ensures_addChannels hI _ _ _ _ _ hs ?_) fun st' hst' => ensures_pure hst'
    intro hdag v hv
    obtain ⟨other, hother, hv⟩ := List.mem_flatMap.mp (hsnks hv)
    rw [if_pos hdag] at hother
    obtain ⟨i, hi⟩ := List.mem_iff_getElem?.mp hother
    rw [List.getElem?_drop] at hi
    obtain ⟨hsrcs, rfl⟩ := List.getElem?_eq_some_iff.mp hci
    obtain ⟨hsnks, rfl⟩ := List.getElem?_eq_some_iff.mp hi
    have houts := (hord.2 _ (List.getElem_mem hsrcs)).outputs
    exact List.pairwise_iff_getElem.mp hord.1 _ _ hsrcs hsnks (by omega) _ (houts hsrc) _ hv
  · exact hst

theorem ensures_connectClusters {o : Options} (hI : Kept o.createDAG I) {clusterMap : List ClusterInformation}
    {st : Generator} (h : Clustered I clusterMap st) : Ensures (connectClusters o clusterMap st) I := by
  unfold connectClusters
  apply ensures_ite
  · intro _
    exact ensures_foldlM (fun src _ s hs => ensures_connectCluster hI h.2 src s hs) h.1
  · intro _
    exact ensures_pure h.1

theorem ensures_clusterGraph {o : Options} (hI : Kept o.createDAG I) (hstart : I start) :
    Ensures (clusterGraph o) I := by
  unfold clusterGraph
  exact ensures_bind (ensures_generateClusters hI hstart) fun ⟨_, _⟩ h => ensures_connectClusters hI h

end

/-! ## Joined components -/

/-- Stays true when two components are joined by a channel. -/
def KeptByJoins (J : List (List Nat) → Generator → Prop) : Prop :=
  ∀ components st i k srcs snks pre u v c st', J components st → i ≠ k → components[i]? = some srcs →
    components[k]? = some snks → u ∈ srcs → v ∈ snks → st.addChannel pre u [v] = some (c, st') →
    J ((components.set i (srcs ++ snks)).eraseIdx k) st'

theorem ensures_joinComponents {J : List (List Nat) → Generator → Prop} (hJ : KeptByJoins J) {pre : String}
    (fuel : Nat) (components : List (List Nat)) (st : Generator) (h : J components st)
    (hfuel : components.length ≤ fuel) :
    Ensures (joinComponents pre fuel components st) fun st' =>
      ∃ components', components'.length ≤ 1 ∧ J components' st' := by
  induction fuel generalizing components st with
  | zero => exact ensures_pure ⟨components, by omega, h⟩
  | succ fuel ih =>
    unfold joinComponents
    apply ensures_ite
    · intro _
      refine ensures_bind ensures_below fun i hi => ?_
      refine ensures_bind ensures_belowOther fun k hk => ?_
      refine ensures_bind (ensures_ofOption fun srcs hsrcs => hsrcs) fun srcs hsrcs => ?_
      refine ensures_bind (ensures_ofOption fun snks hsnks => hsnks) fun snks hsnks => ?_
      refine ensures_bind (P := fun _ => True) ensures_true fun x _ => ?_
      refine ensures_bind (ensures_ofOption fun u hu => hu) fun u hu => ?_
      refine ensures_bind (P := fun _ => True) ensures_true fun y _ => ?_
      refine ensures_bind (ensures_ofOption fun v hv => hv) fun v hv => ?_
      refine ensures_bind (ensures_ofOption fun r hr => hr) fun ⟨c, st'⟩ hadd => ?_
      refine ih _ _ ?_ ?_
      · exact hJ _ _ _ _ _ _ _ _ _ _ _ h (Ne.symm hk.2) hsrcs hsnks (List.mem_of_getElem? hu)
          (List.mem_of_getElem? hv) hadd
      · rw [List.length_eraseIdx, List.length_set, if_pos hk.1]
        omega
    · intro _
      exact ensures_pure ⟨components, by omega, h⟩

theorem mem_componentActors {g : Graph} {compNum : Nat} {compMap : Nat → Nat} {k v : Nat} {l : List Nat}
    (h : (componentActors g compNum compMap)[k]? = some l) :
    v ∈ l ↔ g.IsActor v ∧ compMap v = k := by
  unfold componentActors at h
  rw [List.getElem?_map] at h
  obtain ⟨k', hk, rfl⟩ := Option.map_eq_some_iff.mp h
  obtain ⟨_, rfl⟩ := List.getElem?_eq_some_iff.mp hk
  simp only [List.mem_filter, List.mem_range, List.getElem_range, decide_eq_true_eq, and_iff_right_iff_imp]
  exact fun hv => hv.1.lt

theorem kept_connectComponents {I : Generator → Prop} {pre : String} {st : Generator}
    (hI : ∀ st pre u v c st', I st → st.addChannel pre u [v] = some (c, st') → I st') (h : I st)
    (connected_components : Graph → Nat × (Nat → Nat)) : Ensures (connectComponents connected_components pre st) I := by
  have hJ : KeptByJoins fun _ => I := by
    intro _ _ _ _ _ _ _ _ _ _ _ h _ _ _ _ _ hadd
    exact hI _ _ _ _ _ _ h hadd
  unfold connectComponents
  apply ensures_ite
  · intro _
    refine (ensures_joinComponents hJ _ _ _ h ?_).mono fun _ hst => hst.choose_spec.2
    simp [componentActors]
  · intro _
    exact ensures_pure h

/-! ## Source, inputs and outputs -/

/-- Stays true when actors get a channel from the source, and at most once an input and
an output. -/
structure KeptBySources (o : Options) (vdSource : Nat) (J : List Nat → List Nat → Generator → Prop) : Prop where
  channel : ∀ ins outs st v c st', J ins outs st → o.sourceActor = true → v ≠ vdSource → st.g.IsActor v →
    st.addChannel o.prefixOf vdSource [v] = some (c, st') → J ins outs st'
  input : ∀ ins outs st v, J ins outs st → v ∉ ins → v ≠ vdSource → st.g.IsActor v →
    J (v :: ins) outs (st.addInput o.prefixOf v)
  output : ∀ ins outs st v, J ins outs st → v ∉ outs → st.g.IsActor v →
    J ins (v :: outs) (st.addOutput o.prefixOf v)

section
variable {o : Options} {vdSource v : Nat} {J : List Nat → List Nat → Generator → Prop}

theorem isActor_addSource {st st' : Generator} {w : Nat} (h : addSource o vdSource v st = some st')
    (hw : st.g.IsActor w) : st'.g.IsActor w := by
  unfold addSource at h
  split at h
  · obtain ⟨⟨c, st₁⟩, hadd, rfl⟩ := Option.map_eq_some_iff.mp h
    exact IsActor.addChannel hadd hw
  · cases h
    exact hw

theorem isActor_addInputTo {st : Generator} {w : Nat} (hw : st.g.IsActor w) :
    (addInputTo o v st).g.IsActor w := by
  unfold addInputTo
  split
  · exact hw.addVertex
  · exact hw

theorem isActor_addOutputTo {st : Generator} {w : Nat} (hw : st.g.IsActor w) :
    (addOutputTo o v st).g.IsActor w := by
  unfold addOutputTo
  split
  · exact hw.addVertex
  · exact hw

theorem KeptBySources.source (hJ : KeptBySources o vdSource J) {ins outs : List Nat} {st st' : Generator}
    (h : J ins outs st) (hv : v ≠ vdSource) (hact : st.g.IsActor v)
    (hadd : addSource o vdSource v st = some st') : J ins outs st' := by
  unfold addSource at hadd
  split at hadd
  · rename_i hsource
    obtain ⟨⟨c, st₁⟩, hchan, rfl⟩ := Option.map_eq_some_iff.mp hadd
    exact hJ.channel _ _ _ _ _ _ h hsource hv hact hchan
  · cases hadd
    exact h

theorem KeptBySources.inputTo (hJ : KeptBySources o vdSource J) {ins outs : List Nat} {st : Generator}
    (h : J ins outs st) (hv : v ∉ ins) (hne : v ≠ vdSource) (hact : st.g.IsActor v) :
    ∃ ins', (ins' = ins ∨ ins' = v :: ins) ∧ J ins' outs (addInputTo o v st) := by
  unfold addInputTo
  split
  · exact ⟨_, .inr rfl, hJ.input _ _ _ _ h hv hne hact⟩
  · exact ⟨_, .inl rfl, h⟩

theorem KeptBySources.outputTo (hJ : KeptBySources o vdSource J) {ins outs : List Nat} {st : Generator}
    (h : J ins outs st) (hv : v ∉ outs) (hact : st.g.IsActor v) :
    ∃ outs', (outs' = outs ∨ outs' = v :: outs) ∧ J ins outs' (addOutputTo o v st) := by
  unfold addOutputTo
  split
  · exact ⟨_, .inr rfl, hJ.output _ _ _ _ h hv hact⟩
  · exact ⟨_, .inl rfl, h⟩

/-- After the vertices `done`. -/
structure SourcedInv (vdSource : Nat) (J : List Nat → List Nat → Generator → Prop) (done : List Nat)
    (s : Sourced) (ins outs : List Nat) : Prop where
  kept : J ins outs s.st
  insDone : ins ⊆ done
  outsDone : outs ⊆ done
  noInput : s.inputsConnected = false → ins = []
  noOutput : s.outputsConnected = false → outs = []
  actors : ∀ v ∈ s.actorMap, s.st.g.IsActor v ∧ v ≠ vdSource

theorem ensures_sourceActor (hJ : KeptBySources o vdSource J) {done : List Nat} {s : Sourced}
    (hv : v ∉ done) {ins outs : List Nat} (h : SourcedInv vdSource J done s ins outs) :
    Ensures (sourceActor o vdSource s v) fun s' =>
      ∃ ins' outs', SourcedInv vdSource J (done ++ [v]) s' ins' outs' := by
  unfold sourceActor
  apply ensures_ite
  · intro _
    apply ensures_pure
    exact ⟨ins, outs, { h with
      insDone := List.subset_append_of_subset_left _ h.insDone
      outsDone := List.subset_append_of_subset_left _ h.outsDone }⟩
  intro hcond
  obtain ⟨hsrc, hact⟩ : v ≠ vdSource ∧ s.st.g.IsActor v := by
    simpa only [not_or, not_not] using hcond
  -- the three steps, each taken or not
  refine ensures_bind (P := fun st₁ => J ins outs st₁ ∧ ∀ w, s.st.g.IsActor w → st₁.g.IsActor w) ?_ ?_
  · apply ensures_ofOption
    intro st₁ hst₁
    split at hst₁
    · exact ⟨hJ.source h.kept hsrc hact hst₁, fun w hw => isActor_addSource hst₁ hw⟩
    · cases hst₁
      exact ⟨h.kept, fun w hw => hw⟩
  intro st₁ ⟨hkept₁, hact₁⟩
  have hin : ∃ ins', (ins' = ins ∨ (s.st.g.inEdges v = [] ∧ ins' = v :: ins)) ∧
      J ins' outs (if decide (s.st.g.inEdges v = []) = true then addInputTo o v st₁ else st₁) := by
    by_cases hin : s.st.g.inEdges v = []
    · simp only [hin, decide_true, if_true, true_and]
      exact hJ.inputTo hkept₁ (fun hmem => hv (h.insDone hmem)) hsrc (hact₁ v hact)
    · simp only [hin, decide_false, Bool.false_eq_true, if_false]
      exact ⟨ins, .inl rfl, hkept₁⟩
  have hact₂ : ∀ w, s.st.g.IsActor w →
      (if decide (s.st.g.inEdges v = []) = true then addInputTo o v st₁ else st₁).g.IsActor w := by
    intro w hw
    split
    · exact isActor_addInputTo (hact₁ w hw)
    · exact hact₁ w hw
  obtain ⟨ins', hins', hkept₂⟩ := hin
  generalize (if decide (s.st.g.inEdges v = []) = true then addInputTo o v st₁ else st₁) = st₂ at hact₂ hkept₂ ⊢
  have hout : ∃ outs', (outs' = outs ∨ (s.st.g.outEdges v = [] ∧ outs' = v :: outs)) ∧
      J ins' outs' (if decide (s.st.g.outEdges v = []) = true then addOutputTo o v st₂ else st₂) := by
    by_cases hout : s.st.g.outEdges v = []
    · simp only [hout, decide_true, if_true, true_and]
      exact hJ.outputTo hkept₂ (fun hmem => hv (h.outsDone hmem)) (hact₂ v hact)
    · simp only [hout, decide_false, Bool.false_eq_true, if_false]
      exact ⟨outs, .inl rfl, hkept₂⟩
  have hact₃ : ∀ w, s.st.g.IsActor w →
      (if decide (s.st.g.outEdges v = []) = true then addOutputTo o v st₂ else st₂).g.IsActor w := by
    intro w hw
    split
    · exact isActor_addOutputTo (hact₂ w hw)
    · exact hact₂ w hw
  obtain ⟨outs', houts', hkept₃⟩ := hout
  apply ensures_pure
  refine ⟨ins', outs', hkept₃, ?_, ?_, ?_, ?_, ?_⟩
  · obtain rfl | ⟨_, rfl⟩ := hins'
    · exact List.subset_append_of_subset_left _ h.insDone
    · simpa using List.subset_append_of_subset_left [v] h.insDone
  · obtain rfl | ⟨_, rfl⟩ := houts'
    · exact List.subset_append_of_subset_left _ h.outsDone
    · simpa using List.subset_append_of_subset_left [v] h.outsDone
  · intro hno
    simp only [Bool.or_eq_false_iff, decide_eq_false_iff_not] at hno
    obtain rfl | ⟨hin, _⟩ := hins'
    · exact h.noInput hno.1
    · exact absurd hin hno.2
  · intro hno
    simp only [Bool.or_eq_false_iff, decide_eq_false_iff_not] at hno
    obtain rfl | ⟨hout, _⟩ := houts'
    · exact h.noOutput hno.1
    · exact absurd hout hno.2
  · intro w hw
    simp only [List.mem_append, List.mem_singleton] at hw
    obtain hw | rfl := hw
    · exact ⟨hact₃ w (h.actors w hw).1, (h.actors w hw).2⟩
    · exact ⟨hact₃ w hact, hsrc⟩

theorem kept_addSourcesAt {st : Generator} (hJ : KeptBySources o vdSource J)
    (h : J [] [] (if o.sourceActor then st.addActor (o.prefixOf ++ "source") 1 else st)) :
    Ensures (addSourcesAt o vdSource st) fun st' => ∃ ins outs, J ins outs st' := by
  unfold addSourcesAt
  generalize (if o.sourceActor = true then st.addActor (o.prefixOf ++ "source") 1 else st) = st₀ at h ⊢
  have hloop : Ensures ((List.range st₀.g.vertices.length).foldlM (sourceActor o vdSource)
      ⟨st₀, [], false, false⟩) fun s => ∃ ins outs,
        SourcedInv vdSource J (List.range st₀.g.vertices.length) s ins outs := by
    refine ensures_foldlM_done (I := fun done s => ∃ ins outs, SourcedInv vdSource J done s ins outs) ?_
      (List.nil_append _).symm ⟨[], [], h, by simp, by simp, by simp, by simp, by simp⟩
    intro done v rest s hl ⟨ins, outs, hs⟩
    refine ensures_sourceActor hJ ?_ hs
    have hnodup := hl ▸ List.nodup_range
    exact fun hmem => List.disjoint_of_nodup_append hnodup hmem List.mem_cons_self
  refine ensures_bind hloop fun s ⟨ins, outs, hs⟩ => ?_
  refine ensures_bind (P := fun st₁ => (∃ ins, J ins outs st₁) ∧ ∀ v ∈ s.actorMap, st₁.g.IsActor v) ?_ ?_
  · unfold connectInputs
    apply ensures_ite
    · intro hno
      refine ensures_bind (P := fun _ => True) ensures_true fun _ _ => ?_
      refine ensures_bind (ensures_ofOption fun v hv => hv) fun v hv => ?_
      obtain ⟨hact, hne⟩ := hs.actors v (List.mem_of_getElem? hv)
      refine ensures_bind (ensures_ofOption fun st₁ hst₁ => hst₁) fun st₁ hst₁ => ?_
      have hkept := hJ.source hs.kept hne hact hst₁
      rw [hs.noInput hno.1] at hkept
      obtain ⟨ins', _, hkept'⟩ := hJ.inputTo hkept List.not_mem_nil hne (isActor_addSource hst₁ hact)
      apply ensures_pure
      exact ⟨⟨ins', hkept'⟩, fun w hw => isActor_addInputTo (isActor_addSource hst₁ (hs.actors w hw).1)⟩
    · intro _
      exact ensures_pure ⟨⟨ins, hs.kept⟩, fun w hw => (hs.actors w hw).1⟩
  intro st₁ ⟨⟨ins', hkept⟩, hact⟩
  unfold connectOutputs
  apply ensures_ite
  · intro hno
    refine ensures_bind (P := fun _ => True) ensures_true fun _ _ => ?_
    refine ensures_bind (ensures_ofOption fun v hv => hv) fun v hv => ?_
    rw [hs.noOutput hno.1] at hkept
    obtain ⟨outs', _, hkept'⟩ := hJ.outputTo hkept List.not_mem_nil (hact v (List.mem_of_getElem? hv))
    exact ensures_pure ⟨ins', outs', hkept'⟩
  · intro _
    exact ensures_pure ⟨ins', outs, hkept⟩

theorem ensures_sourceVertex (o : Options) (st : Generator) :
    Ensures (sourceVertex o st) fun vdSource => o.sourceActor = true → vdSource = st.g.vertices.length := by
  unfold sourceVertex
  apply ensures_ite
  · intro _
    exact ensures_pure fun _ => rfl
  · intro hno
    exact ensures_true.mono fun _ _ h => absurd h hno

theorem ensures_addSources {st : Generator} (hJ : ∀ vdSource, (o.sourceActor = true → vdSource = st.g.vertices.length) →
      KeptBySources o vdSource J)
    (h : J [] [] (if o.sourceActor then st.addActor (o.prefixOf ++ "source") 1 else st)) :
    Ensures (addSources o st) fun st' => ∃ ins outs, J ins outs st' :=
  ensures_bind (ensures_sourceVertex o st) fun vdSource hsource => kept_addSourcesAt (hJ vdSource hsource) h

end

end Generator

end SysteMoC.SNG
