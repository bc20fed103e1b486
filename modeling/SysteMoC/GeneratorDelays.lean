import Mathlib.Algebra.Order.Floor.Semiring
import Mathlib.Data.Rat.Floor
import SysteMoC.Generator

/-!
# Extra delay

The steps of `sng-generate-sdf` that put more initial tokens on channels than are
necessary: on all channels, and on those between clusters.
-/

namespace SysteMoC.SNG

open Drawing

namespace Graph

def isFifo (g : Graph) (v : Nat) : Bool :=
  match g.vertices[v]? with
  | some ⟨_, .fifo ..⟩ => true
  | _ => false

def production (g : Graph) (v : Nat) : Nat := ((g.inEdges v).head?.map (·.tokens)).getD 0

/-- The rate times a factor, as a whole number. -/
def additionalInitialTokens (g : Graph) (v : Nat) (extraDelayFactor : ℚ) : Nat := ⌊(g.production v : ℚ) * extraDelayFactor⌋₊

end Graph

def VertexInfo.withDelay (additional : Nat) (vi : VertexInfo) : VertexInfo :=
  match vi.type with
  | .fifo tokenSize capacity delay => { vi with type := .fifo tokenSize (capacity + additional) (delay + additional) }
  | _ => vi

namespace Generator

/-- The body of both loops; a vertex that is no FIFO with one writer fails an assertion. -/
def addDelay (g : Graph) (v : Nat) (extraDelayFactor : ℚ) : Option Graph := do
  let vi ← g.vertices[v]?
  match vi.type, g.inEdges v with
  | .fifo .., [_] =>
    return { g with vertices := g.vertices.set v (vi.withDelay (g.additionalInitialTokens v extraDelayFactor)) }
  | _, _ => none

def addDelays (extraDelayFactor : Nat → ℚ) (channels : List Nat) (g : Graph) : Option Graph :=
  channels.zipIdx.foldlM (fun g (v, k) => addDelay g v (extraDelayFactor k)) g

/-- What `main` keeps for the later steps. -/
structure Main where
  st : Generator
  clusterMap : List ClusterInformation
  channelsBetweenClusters : List Nat

/-- `main` up to the final topology. The set of the channels between clusters is declared
empty, and no statement inserts into it. -/
def main (connected_components : Graph → Nat × (Nat → Nat)) (o : Options) : Drawing Main := do
  let (clusterMap, st) ← generateClusters o
  let channelsBetweenClusters := []
  let st ← connectClusters o clusterMap st
  let st ← connectComponents connected_components o.prefixOf st
  let st ← addSources o st
  return ⟨st, clusterMap, channelsBetweenClusters⟩

def extraDelay (extraDelayFactor : Nat → ℚ) (g : Graph) : Option Graph :=
  addDelays extraDelayFactor ((List.range g.vertices.length).filter g.isFifo) g

def interClusterDelay (extraDelayFactor : Nat → ℚ) (m : Main) (g : Graph) : Option Graph :=
  addDelays extraDelayFactor m.channelsBetweenClusters g

/-! ## Channels between clusters -/

def Apart (clusterMap : List ClusterInformation) (u v : Nat) : Prop :=
  ∃ i < clusterMap.length, ∃ j < clusterMap.length, i ≠ j ∧ u ∈ (clusterMap.getD i ⟨[], [], []⟩).vdActors ∧
    v ∈ (clusterMap.getD j ⟨[], [], []⟩).vdActors

instance (clusterMap : List ClusterInformation) (u v : Nat) : Decidable (Apart clusterMap u v) := by
  unfold Apart
  infer_instance

/-- The source and some sink of the channel `v` were generated in different clusters. -/
def Between (clusterMap : List ClusterInformation) (g : Graph) (v : Nat) : Prop :=
  ∃ e ∈ g.inEdges v, ∃ e' ∈ g.outEdges v, Apart clusterMap e.source e'.target

instance (clusterMap : List ClusterInformation) (g : Graph) : DecidablePred (Between clusterMap g) := fun v => by
  unfold Between
  infer_instance

def between (clusterMap : List ClusterInformation) (g : Graph) : List Nat :=
  (List.range g.vertices.length).filter fun v => g.isFifo v ∧ Between clusterMap g v

/-- The delay and the capacity of the channels `cs` have grown, and nothing else has changed. -/
structure Grown (extraDelayFactor : Nat → ℚ) (cs : List Nat) (g g' : Graph) : Prop where
  edges : g'.edges = g.edges
  grown : ∀ k v, cs[k]? = some v →
    g'.vertices[v]? = (g.vertices[v]?).map (VertexInfo.withDelay (g.additionalInitialTokens v (extraDelayFactor k)))
  others : ∀ v, v ∉ cs → g'.vertices[v]? = g.vertices[v]?

/-! ## What the loop does -/

variable {g g' : Graph} {f : Nat → ℚ} {cs : List Nat} {v w additional : Nat} {x : ℚ}

theorem isFifo_iff : g.isFifo v = true ↔ ∃ name t c d, g.vertices[v]? = some ⟨name, .fifo t c d⟩ := by
  unfold Graph.isFifo
  cases h : g.vertices[v]? with
  | none => simp
  | some vi =>
    obtain ⟨name, type⟩ := vi
    cases type <;> simp

theorem addDelay_eq (hv : g.isFifo v = true) (hin : (g.inEdges v).length = 1) : addDelay g v x =
    some { g with vertices := g.vertices.modify v (VertexInfo.withDelay (g.additionalInitialTokens v x)) } := by
  obtain ⟨name, t, c, d, hvi⟩ := isFifo_iff.mp hv
  obtain ⟨e, he⟩ := List.length_eq_one_iff.mp hin
  simp only [addDelay, hvi, he, Option.bind_eq_bind, Option.bind_some]
  rw [List.modify_eq_set_getElem?, hvi]
  rfl

theorem getElem?_delayed : (g.vertices.modify v (VertexInfo.withDelay additional))[w]? =
    if v = w then (g.vertices[w]?).map (VertexInfo.withDelay additional) else g.vertices[w]? := by
  rw [List.getElem?_modify]
  split <;> simp

theorem isFifo_delayed (h : g.isFifo w = true) :
    Graph.isFifo { g with vertices := g.vertices.modify v (VertexInfo.withDelay additional) } w = true := by
  obtain ⟨name, t, c, d, hw⟩ := isFifo_iff.mp h
  rw [isFifo_iff]
  by_cases hvw : v = w
  · exact ⟨name, t, c + additional, d + additional, by rw [getElem?_delayed, if_pos hvw, hw]; rfl⟩
  · exact ⟨name, t, c, d, by rw [getElem?_delayed, if_neg hvw, hw]⟩

/-- The induction is on the channels; the numbers of the later ones are drawn later. -/
theorem addDelays_grown (hnodup : cs.Nodup) (hcs : ∀ v ∈ cs, g.isFifo v = true ∧ (g.inEdges v).length = 1) :
    ∃ g', addDelays f cs g = some g' ∧ Grown f cs g g' := by
  induction cs generalizing g f with
  | nil => exact ⟨g, rfl, rfl, fun k v h => absurd h (by simp), fun _ _ => rfl⟩
  | cons v cs ih =>
    obtain ⟨hv, hnodup⟩ := List.nodup_cons.mp hnodup
    obtain ⟨hfifo, hin⟩ := hcs v (by simp)
    let g₁ : Graph := { g with vertices := g.vertices.modify v (VertexInfo.withDelay (g.additionalInitialTokens v (f 0))) }
    obtain ⟨g', hrest, hgrown⟩ := ih (g := g₁) (f := fun k => f (k + 1)) hnodup fun w hw => by
      obtain ⟨hfifo', hin'⟩ := hcs w (by simp [hw])
      exact ⟨isFifo_delayed hfifo', hin'⟩
    refine ⟨g', ?_, hgrown.edges, fun k w hw => ?_, fun w hw => ?_⟩
    · rw [addDelays, List.zipIdx_cons, List.foldlM_cons]
      simp only [addDelay_eq hfifo hin, Option.bind_eq_bind, Option.bind_some]
      rw [← hrest, addDelays, List.zipIdx_succ, List.foldlM_map]
    · cases k with
      | zero =>
        cases hw
        rw [hgrown.others v hv, getElem?_delayed, if_pos rfl]
      | succ k =>
        rw [List.getElem?_cons_succ] at hw
        have hne : v ≠ w := fun h => hv (h ▸ List.mem_of_getElem? hw)
        have hsame := hgrown.grown k w hw
        rw [getElem?_delayed, if_neg hne] at hsame
        exact hsame
    · rw [List.mem_cons, not_or] at hw
      rw [hgrown.others w hw.2, getElem?_delayed, if_neg (Ne.symm hw.1)]

theorem extraDelay_grown (h : ∀ v, g.isFifo v = true → (g.inEdges v).length = 1) :
    ∃ g', extraDelay f g = some g' ∧ Grown f ((List.range g.vertices.length).filter g.isFifo) g g' := by
  refine addDelays_grown (List.nodup_range.filter _) fun v hv => ?_
  obtain ⟨-, hfifo⟩ := List.mem_filter.mp hv
  exact ⟨hfifo, h v hfifo⟩

/-! ## The channels that were missed -/

theorem withDelay_eq {vi : VertexInfo} (h : ∃ t c d, vi.type = .fifo t c d) : vi.withDelay additional = vi ↔ additional = 0 := by
  obtain ⟨name, type⟩ := vi
  obtain ⟨t, c, d, htype⟩ := h
  dsimp only at htype
  subst htype
  simp [VertexInfo.withDelay]

theorem main_channels {connected_components : Graph → Nat × (Nat → Nat)} {o : Options} {ds ds' : List Nat} {m : Main}
    (h : main connected_components o ds = some (m, ds')) : m.channelsBetweenClusters = [] := by
  have hall : Ensures (main connected_components o) fun m => m.channelsBetweenClusters = [] := by
    refine ensures_bind (P := fun _ => True) ensures_true fun _ _ => ?_
    refine ensures_bind (P := fun _ => True) ensures_true fun _ _ => ?_
    refine ensures_bind (P := fun _ => True) ensures_true fun _ _ => ?_
    exact ensures_bind (P := fun _ => True) ensures_true fun _ _ => ensures_pure rfl
  exact hall ds m ds' h

/-- The step leaves the graph as it is, which is right exactly if no channel between clusters
was to get an extra token. -/
theorem interClusterDelay_iff {connected_components : Graph → Nat × (Nat → Nat)} {o : Options} {ds ds' : List Nat}
    {m : Main} (h : main connected_components o ds = some (m, ds')) (extraDelayFactor : Nat → ℚ) (g : Graph) :
    ∃ g', interClusterDelay extraDelayFactor m g = some g' ∧
      (Grown extraDelayFactor (between m.clusterMap g) g g' ↔
        ∀ k v, (between m.clusterMap g)[k]? = some v → g.additionalInitialTokens v (extraDelayFactor k) = 0) := by
  refine ⟨g, by rw [interClusterDelay, main_channels h]; rfl, fun hgrown k v hv => ?_, fun hzero =>
      ⟨rfl, fun k v hv => ?_, fun _ _ => rfl⟩⟩
  · obtain ⟨-, hbetween⟩ := List.mem_filter.mp (List.mem_of_getElem? hv)
    obtain ⟨name, t, c, d, hvi⟩ := isFifo_iff.mp (of_decide_eq_true hbetween).1
    have hsame := hgrown.grown k v hv
    rw [hvi, Option.map_some, Option.some.injEq] at hsame
    exact (withDelay_eq ⟨t, c, d, rfl⟩).mp hsame.symm
  · obtain ⟨-, hbetween⟩ := List.mem_filter.mp (List.mem_of_getElem? hv)
    obtain ⟨name, t, c, d, hvi⟩ := isFifo_iff.mp (of_decide_eq_true hbetween).1
    rw [hvi, hzero k v hv, Option.map_some, (withDelay_eq ⟨t, c, d, rfl⟩).mpr rfl]

def pairOfClusters : Options := ⟨none, [("a", 2)], false, false, false, false, false, false⟩

/-- Half a token more is none. -/
theorem interClusterDelay_iff_pair : ∃ m ds', main (fun _ => (1, fun _ => 0)) pairOfClusters
    [2, 1, 1, 1, 1, 1, 1, 1, 1, 1, 0, 0, 0, 0, 9] = some (m, ds') ∧ between m.clusterMap m.st.g = [2] ∧
      m.st.g.additionalInitialTokens 2 (1 / 2) = 0 ∧
      ∃ g', interClusterDelay (fun _ => 1 / 2) m m.st.g = some g' ∧ Grown (fun _ => 1 / 2)
          (between m.clusterMap m.st.g) m.st.g g' := by
  have hrun : ((main (fun _ => (1, fun _ => 0)) pairOfClusters [2, 1, 1, 1, 1, 1, 1, 1, 1, 1, 0, 0, 0, 0, 9]).map
      fun r => (between r.1.clusterMap r.1.st.g, r.1.st.g.production 2)) = some ([2], 1) := by
    decide +kernel
  obtain ⟨⟨m, ds'⟩, h, heq⟩ := Option.map_eq_some_iff.mp hrun
  obtain ⟨hbetween, hprod⟩ : between m.clusterMap m.st.g = [2] ∧ m.st.g.production 2 = 1 := by
    simpa only [Prod.mk.injEq] using heq
  have hnone : m.st.g.additionalInitialTokens 2 (1 / 2) = 0 := by
    rw [Graph.additionalInitialTokens, hprod]
    norm_num
  obtain ⟨g', hg', hiff⟩ := interClusterDelay_iff h (fun _ => 1 / 2) m.st.g
  refine ⟨m, ds', h, hbetween, hnone, g', hg', hiff.mpr fun k v hv => ?_⟩
  have hmem := List.mem_of_getElem? hv
  rw [hbetween, List.mem_singleton] at hmem
  rw [hmem]
  exact hnone

/-- The channel between the two clusters was to get one token more. -/
theorem channel_missed : ∃ m ds', main (fun _ => (1, fun _ => 0)) pairOfClusters
    [2, 1, 1, 1, 1, 1, 1, 1, 1, 1, 0, 0, 0, 0, 9] = some (m, ds') ∧ between m.clusterMap m.st.g = [2] ∧
      m.st.g.additionalInitialTokens 2 1 = 1 ∧
      ∀ g', interClusterDelay (fun _ => 1) m m.st.g = some g' → ¬ Grown (fun _ => 1) (between m.clusterMap m.st.g) m.st.g g' := by
  have hrun : ((main (fun _ => (1, fun _ => 0)) pairOfClusters [2, 1, 1, 1, 1, 1, 1, 1, 1, 1, 0, 0, 0, 0, 9]).map
      fun r => (between r.1.clusterMap r.1.st.g, r.1.st.g.production 2, r.1.st.g.vertices[2]?)) =
        some ([2], 1, some ⟨"c1", .fifo (2 ^ 64 - 1) 1 0⟩) := by
    decide +kernel
  obtain ⟨⟨m, ds'⟩, h, heq⟩ := Option.map_eq_some_iff.mp hrun
  obtain ⟨hbetween, hprod, hvi⟩ : between m.clusterMap m.st.g = [2] ∧ m.st.g.production 2 = 1 ∧
      m.st.g.vertices[2]? = some ⟨"c1", .fifo (2 ^ 64 - 1) 1 0⟩ := by
    simpa only [Prod.mk.injEq] using heq
  have hone : m.st.g.additionalInitialTokens 2 1 = 1 := by
    rw [Graph.additionalInitialTokens, hprod]
    simp
  refine ⟨m, ds', h, hbetween, hone, fun g' hg' hgrown => ?_⟩
  rw [interClusterDelay, main_channels h] at hg'
  cases hg'
  have hsame := hgrown.grown 0 2 (by rw [hbetween]; rfl)
  rw [hvi, hone, Option.map_some, Option.some.injEq] at hsame
  exact absurd ((withDelay_eq ⟨_, _, _, rfl⟩).mp hsame.symm) (by decide)

end Generator

end SysteMoC.SNG
