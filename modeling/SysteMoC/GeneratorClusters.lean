import SysteMoC.GeneratorPhases

/-!
# Interface actors of a cluster

Which actors of a generated cluster are its inputs and its outputs.
-/

namespace SysteMoC.SNG

open Drawing

namespace Generator

/-- The first actors are the inputs and the last ones the outputs, as many as are wanted. -/
structure Interfaces (clusterInputs clusterOutputs : Nat) (ci : ClusterInformation) : Prop where
  inputs : ci.vdInputs = ci.vdActors.take (min clusterInputs ci.vdActors.length)
  outputs : ci.vdOutputs = ci.vdActors.drop (ci.vdActors.length - min clusterOutputs ci.vdActors.length)
  some_output : 0 < clusterOutputs → ci.vdOutputs ≠ []

/-- What the first loop of `generateCluster` has marked. -/
structure Marked (clusterInputs firstOutput size : Nat) (ci : ClusterInformation) : Prop where
  size : ci.vdActors.length = size
  inputs : ci.vdInputs = ci.vdActors.take clusterInputs
  outputs : ci.vdOutputs = ci.vdActors.drop firstOutput

theorem Marked.append {inputs first n : Nat} {ci : ClusterInformation} (h : Marked inputs first n ci) (vd : Nat) :
    Marked inputs first (n + 1) ⟨if n < inputs then ci.vdInputs ++ [vd] else ci.vdInputs,
      if first ≤ n then ci.vdOutputs ++ [vd] else ci.vdOutputs, ci.vdActors ++ [vd]⟩ := by
  obtain ⟨hsize, hinputs, houtputs⟩ := h
  refine ⟨by simp [hsize], ?_, ?_⟩
  · dsimp only
    rw [hinputs]
    by_cases hn : n < inputs
    · rw [if_pos hn, List.take_of_length_le (by omega), List.take_of_length_le (by simp; omega)]
    · rw [if_neg hn, List.take_append_of_le_length (by omega)]
  · dsimp only
    rw [houtputs]
    by_cases hn : first ≤ n
    · rw [if_pos hn, List.drop_append_of_le_length (by omega)]
    · rw [if_neg hn, List.drop_of_length_le (by omega), List.drop_of_length_le (by simp; omega)]

theorem ensures_marked (name : String) (inputs first size : Nat) (st : Generator) :
    Ensures ((List.range size).foldlM (addClusterActor name inputs first) ⟨st, ⟨[], [], []⟩, [], []⟩)
      fun s => Marked inputs first size s.ci := by
  have hstart : Marked inputs first 0 ⟨[], [], []⟩ := ⟨rfl, by simp, by simp⟩
  refine (ensures_foldlM_done (I := fun done s => Marked inputs first done.length s.ci) ?_ (List.nil_append _).symm
    hstart).mono fun s hs => by simpa using hs
  intro done j rest s hl hs
  have hj : j = done.length := by
    have hget := congrArg (·[done.length]?) hl
    simp only [List.getElem?_append_right (Nat.le_refl _), Nat.sub_self, List.getElem?_cons_zero] at hget
    exact (List.getElem?_eq_some_iff.mp hget).2.symm.trans (by simp)
  subst hj
  have hnext := hs.append s.st.g.vertices.length
  rw [List.length_append, List.length_singleton]
  unfold addClusterActor
  refine ensures_bind (P := fun _ => True) ensures_true fun rep _ => ?_
  apply ensures_ite
  · intro hfirst
    rw [if_pos hfirst] at hnext
    exact ensures_pure hnext
  · intro hfirst
    rw [if_neg hfirst] at hnext
    refine ensures_bind (P := fun _ => True) ensures_true fun _ _ => ?_
    refine ensures_bind (P := fun _ => True) ensures_true fun _ _ => ?_
    exact ensures_pure hnext

theorem ensures_connectClusterActor_ci {pre : String} {dag self : Bool} {inputs : Nat} (s : Growing) (j : Nat) :
    Ensures (connectClusterActor pre dag self inputs s j) fun s' => s'.ci = s.ci := by
  unfold connectClusterActor
  refine ensures_bind (P := fun _ => True) (fun _ _ _ _ => trivial) fun _ _ => ?_
  exact ensures_bind (P := fun _ => True) ensures_true fun _ _ => ensures_pure rfl

theorem ensures_generateCluster_marked (o : Options) (type : String) (count size inputs outputs : Nat) (st : Generator) :
    Ensures (do
      check (1 ≤ size)
      let s ← (List.range size).foldlM (addClusterActor (o.prefixOf ++ type ++ toString count) inputs (sizeSub size outputs))
        ⟨st, ⟨[], [], []⟩, [], []⟩
      let s ← (List.range size).foldlM (connectClusterActor o.prefixOf o.createDAG o.allowSelfEdges inputs) s
      return (s.ci, s.st)) fun r => 1 ≤ size ∧ Marked inputs (sizeSub size outputs) size r.1 := by
  refine ensures_bind (ensures_check _) fun _ hsize => ?_
  refine ensures_bind (ensures_marked _ _ _ _ _) fun s hs => ?_
  refine ensures_bind (ensures_foldlM (I := fun s' => s'.ci = s.ci) ?_ rfl) fun s' hs' => ?_
  · intro j _ s' hs'
    exact (ensures_connectClusterActor_ci s' j).mono fun _ h => h.trans hs'
  · exact ensures_pure ⟨hsize, hs'.symm ▸ hs⟩

theorem generateCluster_marked {o : Options} {type : String} {count maxActors actors ins outs size : Nat} {st : Generator}
    {ds ds' : List Nat} {r : ClusterInformation × Generator}
    (h : generateCluster o type count maxActors st (actors :: ins :: outs :: ds) = some (r, ds'))
        (hsize : min actors maxActors = size) :
    1 ≤ size ∧ Marked (min ins (size * 3 / 2)) (sizeSub size (min outs (size * 3 / 2))) size r.1 := by
  subst hsize
  exact ensures_generateCluster_marked o type count _ _ _ st ds r ds' h

/-- The interface actors are those that are wanted exactly if there are not more outputs than actors. -/
theorem interfaces_iff {o : Options} {type : String} {count maxActors actors ins outs : Nat} {st : Generator}
    {ds ds' : List Nat} {r : ClusterInformation × Generator}
    (h : generateCluster o type count maxActors st (actors :: ins :: outs :: ds) = some (r, ds'))
    (hmax : r.1.vdActors.length < 2 ^ 60) :
    let size := min actors maxActors
    r.1.vdActors.length = size ∧
      (Interfaces (min ins (size * 3 / 2)) (min outs (size * 3 / 2)) r.1 ↔ min outs (size * 3 / 2) ≤ size) := by
  intro size
  obtain ⟨hone, hsize, hinputs, houtputs⟩ := generateCluster_marked h rfl
  refine ⟨hsize, fun hi => ?_, fun hle => ⟨?_, ?_, ?_⟩⟩
  · -- otherwise no index reaches the first output
    by_contra hlt
    have hnone : r.1.vdOutputs = [] := by
      rw [houtputs, sizeSub, if_neg hlt]
      exact List.drop_of_length_le (by omega)
    exact hi.some_output (by omega) hnone
  · rw [hinputs, hsize]
    by_cases hlt : min ins (size * 3 / 2) ≤ size
    · rw [Nat.min_eq_left hlt]
    · have hge : size ≤ min ins (size * 3 / 2) := by omega
      rw [Nat.min_eq_right hge, List.take_of_length_le (by omega), List.take_of_length_le (by omega)]
  · rw [houtputs, hsize, sizeSub, if_pos hle, Nat.min_eq_left hle]
  · intro hpos
    rw [houtputs, sizeSub, if_pos hle]
    apply List.ne_nil_of_length_pos
    rw [List.length_drop]
    omega

def clusterOnly : Options := ⟨none, [("t", 1)], false, false, false, false, false, false⟩

theorem interfaces_iff_three : ∃ r ds', generateCluster clusterOnly "t" 1 3 start [3, 2, 1, 1, 0, 0, 1, 0, 0, 1] = some (r, ds') ∧
    Interfaces 2 1 r.1 := by
  obtain ⟨⟨r, ds'⟩, h⟩ := Option.isSome_iff_exists.mp
    (show (generateCluster clusterOnly "t" 1 3 start [3, 2, 1, 1, 0, 0, 1, 0, 0, 1]).isSome = true by decide +kernel)
  have hlen : r.1.vdActors.length = 3 := (generateCluster_marked h (Nat.min_self 3)).2.size
  exact ⟨r, ds', h, (interfaces_iff h (by omega)).2.mpr (by decide)⟩

/-- Three outputs are wanted of two actors, and there is none. -/
theorem outputs_lost : ∃ r ds', generateCluster clusterOnly "t" 1 2 start [2, 0, 3, 1, 0, 0, 1, 0, 0] = some (r, ds') ∧
    r.1.vdActors.length = 2 ∧ r.1.vdOutputs = [] ∧ ¬ Interfaces 0 3 r.1 := by
  obtain ⟨⟨r, ds'⟩, h⟩ := Option.isSome_iff_exists.mp
    (show (generateCluster clusterOnly "t" 1 2 start [2, 0, 3, 1, 0, 0, 1, 0, 0]).isSome = true by decide +kernel)
  obtain ⟨-, hsize, -, houtputs⟩ := generateCluster_marked h (Nat.min_self 2)
  have hnone : r.1.vdOutputs = [] := by
    rw [houtputs]
    exact List.drop_of_length_le (by rw [hsize]; decide)
  exact ⟨r, ds', h, hsize, hnone, fun hi => hi.some_output (by decide) hnone⟩

end Generator

end SysteMoC.SNG
