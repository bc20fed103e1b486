import Mathlib.Algebra.BigOperators.Ring.List
import Mathlib.Algebra.Order.BigOperators.Group.List
import Mathlib.Tactic.FieldSimp
import Mathlib.Tactic.Linarith
import Mathlib.Tactic.Positivity
import SysteMoC.GeneratorRates
import SysteMoC.GeneratorBytes

/-!
# The communication budget

What the shares of the channels add up to, and when the step that assigns them goes wrong.
-/

namespace SysteMoC.SNG

open Drawing

namespace Graph

def isRegister (g : Graph) (v : Nat) : Bool :=
  match g.vertices[v]? with
  | some ⟨_, .register _⟩ => true
  | _ => false

end Graph

namespace Generator

/-! ## Channels of generated graphs -/

/-- All edges at the FIFO `v` pass the same number of tokens. -/
def FifoOk (g : Graph) (v : Nat) : Prop :=
  ∃ e, g.inEdges v = [e] ∧ 0 < tokensPerIteration g e e.source ∧ g.outEdges v ≠ [] ∧
    ∀ e' ∈ g.outEdges v, tokensPerIteration g e' e'.target = tokensPerIteration g e e.source

/-- The register `v` is an input or an output of one actor. -/
def RegisterOk (g : Graph) (v : Nat) : Prop :=
  (∃ e, g.inEdges v = [] ∧ g.outEdges v = [e] ∧ e.tokens = 1 ∧ g.IsActor e.target) ∨
    ∃ e, g.inEdges v = [e] ∧ g.outEdges v = [] ∧ e.tokens = 1 ∧ g.IsActor e.source

structure Wired (g : Graph) : Prop where
  closed : g.Closed
  fifo : ∀ v, g.isFifo v = true → FifoOk g v
  register : ∀ v, g.isRegister v = true → RegisterOk g v

structure Attaches (g g' : Graph) (vi : VertexInfo) (es : List Edge) : Prop where
  vertices : g'.vertices = g.vertices ++ [vi]
  edges : g'.edges = g.edges ++ es
  ends : ∀ e ∈ es, (g.IsActor e.source ∨ e.source = g.vertices.length) ∧ (g.IsActor e.target ∨ e.target = g.vertices.length)

section
variable {g g' : Graph} {vi : VertexInfo} {es : List Edge} {v : Nat} {st st' : Generator}

theorem isRegister_iff : g.isRegister v = true ↔ ∃ name t, g.vertices[v]? = some ⟨name, .register t⟩ := by
  unfold Graph.isRegister
  cases h : g.vertices[v]? with
  | none => simp
  | some vi =>
    obtain ⟨name, type⟩ := vi
    cases type <;> simp

theorem isFifo_not_actor (h : g.isFifo v = true) : ¬ g.IsActor v := by
  obtain ⟨name, t, c, d, hvi⟩ := isFifo_iff.mp h
  simp [Graph.IsActor, Graph.repCount?, hvi]

theorem isRegister_not_actor (h : g.isRegister v = true) : ¬ g.IsActor v := by
  obtain ⟨name, t, hvi⟩ := isRegister_iff.mp h
  simp [Graph.IsActor, Graph.repCount?, hvi]

theorem Attaches.lt_of (h : Attaches g g' vi es) (hv : v ≠ g.vertices.length) (hv' : v < g'.vertices.length) :
    v < g.vertices.length := by
  rw [h.vertices, List.length_append, List.length_singleton] at hv'
  omega

theorem Attaches.vertex (h : Attaches g g' vi es) (hv : v < g.vertices.length) : g'.vertices[v]? = g.vertices[v]? := by
  rw [h.vertices, List.getElem?_append_left hv]

theorem Attaches.repCount? (h : Attaches g g' vi es) (hv : v < g.vertices.length) : g'.repCount? v = g.repCount? v := by
  unfold Graph.repCount?
  rw [h.vertex hv]

theorem Attaches.same (h : Attaches g g' vi es) (hv : v < g.vertices.length) (hact : ¬ g.IsActor v) :
    g'.inEdges v = g.inEdges v ∧ g'.outEdges v = g.outEdges v := by
  refine ⟨Graph.inEdges_elsewhere h.edges fun e he heq => ?_, Graph.outEdges_elsewhere h.edges fun e he heq => ?_⟩
  · obtain hactor | hfresh := (h.ends e he).2
    · exact hact (heq ▸ hactor)
    · omega
  · obtain hactor | hfresh := (h.ends e he).1
    · exact hact (heq ▸ hactor)
    · omega

theorem Attaches.closed (h : Attaches g g' vi es) (hclosed : g.Closed) : g'.Closed := by
  intro e he
  rw [h.vertices, List.length_append, List.length_singleton]
  rw [h.edges, List.mem_append] at he
  obtain he | he := he
  · have := hclosed e he
    omega
  · obtain ⟨hsrc, htgt⟩ := h.ends e he
    have hsrc := hsrc.imp_left Graph.IsActor.lt
    have htgt := htgt.imp_left Graph.IsActor.lt
    omega

theorem Attaches.transmission (h : Attaches g g' vi es) (hv : v < g.vertices.length) (e : Edge) :
    tokensPerIteration g' e v = tokensPerIteration g e v := by
  unfold tokensPerIteration
  rw [h.repCount? hv]

theorem Attaches.isActor (h : Attaches g g' vi es) (hv : g.IsActor v) : g'.IsActor v := by
  unfold Graph.IsActor
  rw [h.repCount? hv.lt]
  exact hv

theorem Wired.attach (h : Wired g) (ha : Attaches g g' vi es)
    (hfifo : g'.isFifo g.vertices.length = true → FifoOk g' g.vertices.length)
    (hregister : g'.isRegister g.vertices.length = true → RegisterOk g' g.vertices.length) : Wired g' := by
  refine ⟨ha.closed h.closed, fun v hv => ?_, fun v hv => ?_⟩
  · by_cases hnew : v = g.vertices.length
    · rw [hnew] at hv ⊢
      exact hfifo hv
    · obtain ⟨name, t, c, d, hvi⟩ := isFifo_iff.mp hv
      have hlt := ha.lt_of hnew (List.getElem?_eq_some_iff.mp hvi).1
      rw [ha.vertex hlt] at hvi
      have hold : g.isFifo v = true := isFifo_iff.mpr ⟨name, t, c, d, hvi⟩
      obtain ⟨hin, hout⟩ := ha.same hlt (isFifo_not_actor hold)
      obtain ⟨e, he, hpos, hne, hall⟩ := h.fifo v hold
      have hmem := (Graph.mem_inEdges.mp (he ▸ List.mem_singleton_self e : e ∈ g.inEdges v)).1
      have hsrc := ha.transmission (h.closed e hmem).1 e
      refine ⟨e, hin.trans he, hsrc ▸ hpos, hout ▸ hne, fun e' he' => ?_⟩
      rw [hout] at he'
      rw [ha.transmission (h.closed e' (Graph.mem_outEdges.mp he').1).2, hsrc]
      exact hall e' he'
  · by_cases hnew : v = g.vertices.length
    · rw [hnew] at hv ⊢
      exact hregister hv
    · obtain ⟨name, t, hvi⟩ := isRegister_iff.mp hv
      have hlt := ha.lt_of hnew (List.getElem?_eq_some_iff.mp hvi).1
      rw [ha.vertex hlt] at hvi
      have hold : g.isRegister v = true := isRegister_iff.mpr ⟨name, t, hvi⟩
      obtain ⟨hin, hout⟩ := ha.same hlt (isRegister_not_actor hold)
      obtain ⟨e, he, he', htok, hact⟩ | ⟨e, he, he', htok, hact⟩ := h.register v hold
      · exact .inl ⟨e, hin.trans he, hout.trans he', htok, ha.isActor hact⟩
      · exact .inr ⟨e, hin.trans he, hout.trans he', htok, ha.isActor hact⟩

theorem Wired.addActor (h : Wired st.g) (name : String) (repCount : Nat) : Wired (st.addActor name repCount).g := by
  have ha : Attaches st.g (st.addActor name repCount).g ⟨name, .actor repCount⟩ [] := ⟨rfl, by simp [Generator.addActor], by simp⟩
  apply h.attach ha
  · intro hv
    simp [isFifo_iff, Generator.addActor] at hv
  · intro hv
    simp [isRegister_iff, Generator.addActor] at hv

theorem Wired.channel (h : Wired st.g) {pre : String} {src c : Nat} {snks : List Nat} (hne : snks ≠ [])
    (hadd : st.addChannel pre src snks = some (c, st')) : Wired st'.g := by
  obtain ⟨repSrc, repSnks, prod, cons, hsrc, hsnks, hprod, hcons, hadded⟩ := channelAdded hadd
  obtain ⟨edProd, rep, hbal⟩ := hadded.balanced h.closed hne hsrc hsnks hprod hcons
  obtain ⟨name, hname⟩ := hadded.vertices
  obtain ⟨name', es, hes, hessrc, htgt, -⟩ := hadded.edges
  have hc := hadded.fresh
  subst hc
  have hpos := div?_pos hprod
  have ha := Attaches.mk hname hes (by
    intro e he
    obtain rfl | he := List.mem_cons.mp he
    · exact ⟨.inl hadded.source, .inr rfl⟩
    · exact ⟨.inr (hessrc e he), .inl (hadded.sinks _ (htgt ▸ List.mem_map_of_mem he))⟩)
  apply h.attach ha
  · intro _
    have hmem : (⟨⟨name', unknown, prod⟩, src, st.g.vertices.length⟩ : Edge) ∈ st'.g.inEdges st.g.vertices.length := by
      rw [Graph.mem_inEdges, hes]
      simp
    rw [hbal.produced, List.mem_singleton] at hmem
    subst hmem
    have hrep : rep = repSrc := by
      have hprod := hbal.producer
      rw [ha.repCount? hadded.source.lt, hsrc] at hprod
      exact (Option.some.inj hprod).symm
    subst hrep
    refine ⟨_, hbal.produced, ?_, hbal.consumed, fun e he => ?_⟩
    · rw [tokensPerIteration, hbal.producer]
      exact Nat.mul_pos hbal.prod_pos hpos
    · obtain ⟨-, repSnk, hsnk, heq⟩ := hbal.rates e he
      rw [tokensPerIteration, tokensPerIteration, hbal.producer, hsnk]
      exact heq.symm
  · intro hv
    simp [isRegister_iff, hname] at hv

theorem Wired.addInput (h : Wired st.g) {pre : String} (hv : st.g.IsActor v) : Wired (st.addInput pre v).g := by
  have ha : Attaches st.g (st.addInput pre v).g ⟨pre ++ "regIn" ++ toString (st.inputCount + 1), .register unknown⟩
      [⟨⟨"in", unknown, 1⟩, st.g.vertices.length, v⟩] := ⟨rfl, rfl, by simp [hv]⟩
  have hne : st.g.vertices.length ≠ v := hv.lt.ne'
  apply h.attach ha
  · intro hv
    simp [isFifo_iff, Generator.addInput] at hv
  · intro _
    refine .inl ⟨⟨⟨"in", unknown, 1⟩, st.g.vertices.length, v⟩, ?_, ?_, rfl, ha.isActor hv⟩
    · rw [Graph.inEdges_append ha.edges, h.closed.inEdges_nil (Nat.le_refl _)]
      simp [Ne.symm hne]
    · rw [Graph.outEdges_append ha.edges, h.closed.outEdges_nil (Nat.le_refl _)]
      simp

theorem Wired.addOutput (h : Wired st.g) {pre : String} (hv : st.g.IsActor v) : Wired (st.addOutput pre v).g := by
  have ha : Attaches st.g (st.addOutput pre v).g ⟨pre ++ "regOut" ++ toString (st.outputCount + 1), .register unknown⟩
      [⟨⟨"out", unknown, 1⟩, v, st.g.vertices.length⟩] := ⟨rfl, rfl, by simp [hv]⟩
  have hne : st.g.vertices.length ≠ v := hv.lt.ne'
  apply h.attach ha
  · intro hv
    simp [isFifo_iff, Generator.addOutput] at hv
  · intro _
    refine .inr ⟨⟨⟨"out", unknown, 1⟩, v, st.g.vertices.length⟩, ?_, ?_, rfl, ha.isActor hv⟩
    · rw [Graph.inEdges_append ha.edges, h.closed.inEdges_nil (Nat.le_refl _)]
      simp
    · rw [Graph.outEdges_append ha.edges, h.closed.outEdges_nil (Nat.le_refl _)]
      simp [Ne.symm hne]

end

theorem wired_start : Wired start.g := by
  refine ⟨fun e he => ?_, fun v hv => ?_, fun v hv => ?_⟩
  · cases he
  · cases hv
  · cases hv

theorem generate_wired {connected_components : Graph → Nat × (Nat → Nat)} {o : Options} {ds ds' : List Nat} {st : Generator}
    (h : generate connected_components o ds = some (st, ds')) : Wired st.g := by
  have hall : Ensures (generate connected_components o) fun st => Wired st.g := by
    unfold generate
    have hkept : Kept o.createDAG fun st => Wired st.g :=
      ⟨fun _ name rep h => h.addActor name rep, fun _ _ _ _ _ _ h hne _ hadd => h.channel hne hadd⟩
    refine ensures_bind (ensures_clusterGraph hkept wired_start) fun st hst => ?_
    refine ensures_bind (P := fun st => Wired st.g) ?_ fun st hst => ?_
    · exact kept_connectComponents (fun _ _ _ _ _ _ h hadd => h.channel (by simp) hadd) hst _
    · have hJ : ∀ vdSource, KeptBySources o vdSource fun _ _ st => Wired st.g := fun vdSource =>
        ⟨fun _ _ _ _ _ _ h _ _ _ hadd => h.channel (by simp) hadd, fun _ _ _ _ h _ _ hact => h.addInput hact,
          fun _ _ _ _ h _ hact => h.addOutput hact⟩
      refine (ensures_addSources (fun vdSource _ => hJ vdSource) ?_).mono fun _ h => h.choose_spec.choose_spec
      split
      · exact hst.addActor _ _
      · exact hst
  exact hall ds st ds' h

/-! ## Sizes in between -/

/-- Without sizes and initial tokens. -/
def plain (vi : VertexInfo) : VertexInfo :=
  match vi.type with
  | .fifo .. => { vi with type := .fifo 0 0 0 }
  | .register _ => { vi with type := .register 0 }
  | .actor _ => vi

/-- The same graph but for token sizes, capacities and initial tokens. -/
structure Alike (g g' : Graph) : Prop where
  edges : g'.edges = g.edges
  vertices : g'.vertices.map plain = g.vertices.map plain

section
variable {g g' : Graph} {v : Nat}

theorem repCount?_plain (g : Graph) (v : Nat) : g.repCount? v = ((g.vertices[v]?).map plain).bind fun vi =>
    match vi.type with
    | .actor repCount => some repCount
    | _ => none := by
  unfold Graph.repCount? plain
  cases g.vertices[v]? with
  | none => rfl
  | some vi =>
    obtain ⟨name, type⟩ := vi
    cases type <;> rfl

theorem isFifo_plain (g : Graph) (v : Nat) : g.isFifo v = match (g.vertices[v]?).map plain with
    | some ⟨_, .fifo ..⟩ => true
    | _ => false := by
  unfold Graph.isFifo plain
  cases g.vertices[v]? with
  | none => rfl
  | some vi =>
    obtain ⟨name, type⟩ := vi
    cases type <;> rfl

theorem isRegister_plain (g : Graph) (v : Nat) : g.isRegister v = match (g.vertices[v]?).map plain with
    | some ⟨_, .register _⟩ => true
    | _ => false := by
  unfold Graph.isRegister plain
  cases g.vertices[v]? with
  | none => rfl
  | some vi =>
    obtain ⟨name, type⟩ := vi
    cases type <;> rfl

theorem Alike.vertex (h : Alike g g') (v : Nat) : (g'.vertices[v]?).map plain = (g.vertices[v]?).map plain := by
  rw [← List.getElem?_map, ← List.getElem?_map, h.vertices]

theorem Alike.length (h : Alike g g') : g'.vertices.length = g.vertices.length := by
  simpa using congrArg List.length h.vertices

theorem Alike.inEdges (h : Alike g g') (v : Nat) : g'.inEdges v = g.inEdges v := by
  rw [Graph.inEdges, h.edges]
  rfl

theorem Alike.outEdges (h : Alike g g') (v : Nat) : g'.outEdges v = g.outEdges v := by
  rw [Graph.outEdges, h.edges]
  rfl

theorem Alike.repCount? (h : Alike g g') (v : Nat) : g'.repCount? v = g.repCount? v := by
  rw [repCount?_plain, h.vertex, ← repCount?_plain]

theorem Alike.isFifo (h : Alike g g') (v : Nat) : g'.isFifo v = g.isFifo v := by
  rw [isFifo_plain, h.vertex, ← isFifo_plain]

theorem Alike.isRegister (h : Alike g g') (v : Nat) : g'.isRegister v = g.isRegister v := by
  rw [isRegister_plain, h.vertex, ← isRegister_plain]

theorem Alike.wired (h : Alike g g') (hw : Wired g) : Wired g' := by
  refine ⟨fun e he => ?_, fun v hv => ?_, fun v hv => ?_⟩
  · rw [h.length]
    exact hw.closed e (h.edges ▸ he)
  · rw [h.isFifo] at hv
    simpa only [FifoOk, tokensPerIteration, h.inEdges, h.outEdges, h.repCount?] using hw.fifo v hv
  · rw [h.isRegister] at hv
    simpa only [RegisterOk, Graph.IsActor, h.inEdges, h.outEdges, h.repCount?] using hw.register v hv

end

/-! ## Sums of scalings -/

section
variable (q : CommOptions) (g : Graph)

def singlecastScaling (v : Nat) : ℚ := if g.isFifo v ∧ ¬ 1 < (g.outEdges v).length then q.commScaling v else 0

def multicastScaling (v : Nat) : ℚ := if g.isFifo v ∧ 1 < (g.outEdges v).length then q.commScaling v else 0

def amplifiedScaling (v : Nat) : ℚ := multicastScaling q g v * (g.outEdges v).length

def inputScaling (v : Nat) : ℚ := if g.isRegister v ∧ g.inEdges v = [] then q.commScaling v * (g.outEdges v).length else 0

def outputScaling (v : Nat) : ℚ := if g.isRegister v ∧ g.inEdges v ≠ [] then q.commScaling v else 0

def sumOver (w : Nat → ℚ) : ℚ := ((List.range g.vertices.length).map w).sum

end

section
variable {q : CommOptions} {g : Graph} {v : Nat} {w w' : Nat → ℚ}

theorem commScaling_nonneg (q : CommOptions) (v : Nat) : 0 ≤ q.commScaling v := le_max_left _ _

theorem addScaling_eq (h : Wired g) (s : ScalingSums) (v : Nat) : addScaling q g s v =
    .ok ⟨s.singlecast + singlecastScaling q g v, s.input + inputScaling q g v, s.output + outputScaling q g v,
      s.multicast + multicastScaling q g v, s.amplification + amplifiedScaling q g v⟩ := by
  unfold addScaling amplifiedScaling singlecastScaling multicastScaling inputScaling outputScaling
  cases hv : g.vertices[v]? with
  | none => simp [Graph.isFifo, Graph.isRegister, hv, pure, Except.pure]
  | some vi =>
    obtain ⟨name, type⟩ := vi
    cases type with
    | actor r => simp [Graph.isFifo, Graph.isRegister, hv, pure, Except.pure]
    | fifo t c d =>
      have hfifo : g.isFifo v = true := isFifo_iff.mpr ⟨name, t, c, d, hv⟩
      obtain ⟨_, _, _, hne, _⟩ := h.fifo v hfifo
      have hone : 1 ≤ (g.outEdges v).length := List.length_pos_iff.mpr hne
      by_cases hmany : 1 < (g.outEdges v).length
      · simp [hfifo, Graph.isRegister, hv, asserted, hone, hmany, pure, Except.pure, bind, Except.bind]
      · simp [hfifo, Graph.isRegister, hv, asserted, hone, hmany, pure, Except.pure, bind, Except.bind]
    | register t =>
      have hreg : g.isRegister v = true := isRegister_iff.mpr ⟨name, t, hv⟩
      obtain ⟨e, hin, hout, -⟩ | ⟨e, hin, hout, -⟩ := h.register v hreg
      · simp [hreg, Graph.isFifo, hv, hin, pure, Except.pure]
      · simp [hreg, Graph.isFifo, hv, hin, hout, asserted, pure, Except.pure, bind, Except.bind]

def sumsOf (q : CommOptions) (g : Graph) : ScalingSums where
  singlecast := sumOver g (singlecastScaling q g)
  input := sumOver g (inputScaling q g)
  output := sumOver g (outputScaling q g)
  multicast := sumOver g (multicastScaling q g)
  amplification := sumOver g (amplifiedScaling q g)

theorem scalingSums_eq (h : Wired g) : scalingSums q g = .ok (sumsOf q g) := by
  have hloop : ∀ (l : List Nat) (s : ScalingSums), l.foldlM (addScaling q g) s =
      .ok ⟨s.singlecast + (l.map (singlecastScaling q g)).sum, s.input + (l.map (inputScaling q g)).sum,
        s.output + (l.map (outputScaling q g)).sum, s.multicast + (l.map (multicastScaling q g)).sum,
        s.amplification + (l.map (amplifiedScaling q g)).sum⟩ := by
    intro l
    induction l with
    | nil =>
      intro s
      simp [pure, Except.pure]
    | cons v l ih =>
      intro s
      rw [List.foldlM_cons, addScaling_eq h]
      simp only [bind, Except.bind, ih, List.map_cons, List.sum_cons, add_assoc]
  rw [scalingSums, hloop]
  simp only [zero_add, sumsOf, sumOver]

theorem le_sumOver (hw : ∀ v, 0 ≤ w v) (hv : v < g.vertices.length) : w v ≤ sumOver g w := by
  apply List.single_le_sum
  · intro x hx
    obtain ⟨u, -, rfl⟩ := List.mem_map.mp hx
    exact hw u
  · exact List.mem_map_of_mem (List.mem_range.mpr hv)

theorem sumOver_nonneg (hw : ∀ v, 0 ≤ w v) : 0 ≤ sumOver g w := by
  apply List.sum_nonneg
  intro x hx
  obtain ⟨u, -, rfl⟩ := List.mem_map.mp hx
  exact hw u

theorem sumOver_mono (hw : ∀ v, w v ≤ w' v) : sumOver g w ≤ sumOver g w' := List.sum_le_sum fun v _ => hw v

theorem sumOver_add : (sumOver g fun v => w v + w' v) = sumOver g w + sumOver g w' := List.sum_map_add

theorem sumOver_mul (a : ℚ) : (sumOver g fun v => a * w v) = a * sumOver g w := List.sum_map_mul_left _ _ _

theorem singlecastScaling_nonneg (v : Nat) : 0 ≤ singlecastScaling q g v := by
  unfold singlecastScaling
  split
  · exact commScaling_nonneg q v
  · exact le_refl _

theorem multicastScaling_nonneg (v : Nat) : 0 ≤ multicastScaling q g v := by
  unfold multicastScaling
  split
  · exact commScaling_nonneg q v
  · exact le_refl _

theorem inputScaling_nonneg (v : Nat) : 0 ≤ inputScaling q g v := by
  unfold inputScaling
  split
  · exact mul_nonneg (commScaling_nonneg q v) (Nat.cast_nonneg _)
  · exact le_refl _

theorem outputScaling_nonneg (v : Nat) : 0 ≤ outputScaling q g v := by
  unfold outputScaling
  split
  · exact commScaling_nonneg q v
  · exact le_refl _

theorem twice_multicast_le : 2 * sumOver g (multicastScaling q g) ≤ sumOver g (amplifiedScaling q g) := by
  rw [← sumOver_mul]
  apply sumOver_mono
  intro v
  unfold amplifiedScaling
  by_cases hv : g.isFifo v ∧ 1 < (g.outEdges v).length
  · rw [mul_comm]
    have htwo : (2 : ℚ) ≤ (g.outEdges v).length := by exact_mod_cast hv.2
    exact mul_le_mul_of_nonneg_left htwo (multicastScaling_nonneg v)
  · simp [multicastScaling, hv]

theorem amplifiedScaling_nonneg (v : Nat) : 0 ≤ amplifiedScaling q g v :=
  mul_nonneg (multicastScaling_nonneg v) (Nat.cast_nonneg _)

end

/-! ## Shares -/

/-- The bytes to write for a read ratio `r`. -/
def writeComm (q : CommOptions) (r : ℚ) : Nat := ⌊(q.internalComm : ℚ) / (1 + r)⌋₊

def readComm (q : CommOptions) (r : ℚ) : Nat := ⌊(q.internalComm : ℚ) * r / (1 + r)⌋₊

def multicastWrite (q : CommOptions) (r x : ℚ) : Nat := ⌊((readComm q r - writeComm q r : Nat) : ℚ) / (x - 1)⌋₊

section
variable {q : CommOptions} {s : ScalingSums} {a b r x : ℚ}

theorem quotient_eq (hb : b ≠ 0) : quotient a b = .ok (a / b) := if_neg hb

theorem toSize_eq (h : 0 ≤ a) (h' : a < 2 ^ 64) : toSize a = .ok ⌊a⌋₊ := if_pos ⟨h, h'⟩

theorem writeComm_le (hr : 1 ≤ r) : (writeComm q r : ℚ) ≤ q.internalComm / (1 + r) := by
  apply Nat.floor_le
  positivity

theorem readComm_le (hr : 1 ≤ r) : (readComm q r : ℚ) ≤ q.internalComm * r / (1 + r) := by
  apply Nat.floor_le
  positivity

theorem write_add_read (hr : 1 ≤ r) : (q.internalComm : ℚ) / (1 + r) + q.internalComm * r / (1 + r) = q.internalComm := by
  have hne : (1 + r) ≠ 0 := by positivity
  field_simp

theorem write_le_read (hr : 1 ≤ r) : (q.internalComm : ℚ) / (1 + r) ≤ q.internalComm * r / (1 + r) := by
  apply div_le_div_of_nonneg_right
  · exact le_mul_of_one_le_right (Nat.cast_nonneg _) hr
  · positivity

theorem writeComm_le_readComm (hr : 1 ≤ r) : writeComm q r ≤ readComm q r := Nat.floor_mono (write_le_read hr)

theorem internal_cast_lt (q : CommOptions) : (q.internalComm : ℚ) < 2 ^ 64 := by exact_mod_cast q.internal_lt

theorem multicastWrite_mul_le (hr : 1 ≤ r) (hx : 2 ≤ x) :
    (multicastWrite q r x : ℚ) * (x - 1) ≤ readComm q r - writeComm q r := by
  have hpos : 0 < x - 1 := by linarith
  rw [← Nat.cast_sub (writeComm_le_readComm hr)]
  refine (le_div_iff₀ hpos).mp (Nat.floor_le ?_)
  positivity

/-- With a read ratio and multicast channels the step either finds the shares or reports that
too little would be written. -/
theorem shares_ratio (hratio : q.readRatio = some r) (hr : 1 ≤ r) (hpos : 0 < s.multicast)
    (htwice : 2 * s.multicast ≤ s.amplification) :
    shares q s = if writeComm q r < multicastWrite q r (s.amplification / s.multicast) then
        .error (.runtimeError increaseDegrees)
      else .ok ⟨multicastWrite q r (s.amplification / s.multicast),
        writeComm q r - multicastWrite q r (s.amplification / s.multicast), s.singlecast, s.multicast⟩ := by
  have hx : 2 ≤ s.amplification / s.multicast := (le_div_iff₀ hpos).mpr htwice
  have hone : 0 < 1 + r := by linarith
  have hwrite : (q.internalComm : ℚ) / (1 + r) < 2 ^ 64 := by
    have hread : 0 ≤ (q.internalComm : ℚ) * r / (1 + r) := by positivity
    linarith [internal_cast_lt q, write_add_read (q := q) hr]
  have hread : (q.internalComm : ℚ) * r / (1 + r) < 2 ^ 64 := by
    have hwrite : 0 ≤ (q.internalComm : ℚ) / (1 + r) := by positivity
    linarith [internal_cast_lt q, write_add_read (q := q) hr]
  have hsub : sizeSub (readComm q r) (writeComm q r) = readComm q r - writeComm q r := if_pos (writeComm_le_readComm hr)
  have hmulti : ((readComm q r - writeComm q r : Nat) : ℚ) / (s.amplification / s.multicast - 1) < 2 ^ 64 := by
    have hle : ((readComm q r - writeComm q r : Nat) : ℚ) ≤ readComm q r := by exact_mod_cast Nat.sub_le _ _
    have hden : 1 ≤ s.amplification / s.multicast - 1 := by linarith
    calc ((readComm q r - writeComm q r : Nat) : ℚ) / (s.amplification / s.multicast - 1)
        ≤ ((readComm q r - writeComm q r : Nat) : ℚ) := div_le_self (Nat.cast_nonneg _) hden
      _ ≤ readComm q r := hle
      _ ≤ q.internalComm * r / (1 + r) := readComm_le hr
      _ < 2 ^ 64 := hread
  have hden : s.amplification / s.multicast - 1 ≠ 0 := by linarith
  have htoWrite : toSize (q.internalComm / (1 + r)) = .ok (writeComm q r) := toSize_eq (by positivity) hwrite
  have htoRead : toSize (q.internalComm * r / (1 + r)) = .ok (readComm q r) := toSize_eq (by positivity) hread
  have htoMulti : toSize (((readComm q r - writeComm q r : Nat) : ℚ) / (s.amplification / s.multicast - 1)) =
      .ok (multicastWrite q r (s.amplification / s.multicast)) :=
    toSize_eq (div_nonneg (Nat.cast_nonneg _) (by linarith)) hmulti
  simp only [shares, hratio, quotient_eq hone.ne', quotient_eq hpos.ne', quotient_eq hden, htoWrite, htoRead, hsub, htoMulti,
    bind, Except.bind]
  by_cases hlt : writeComm q r < multicastWrite q r (s.amplification / s.multicast)
  · rw [if_pos hlt, if_pos hlt]
    rfl
  · rw [if_neg hlt, if_neg hlt, sizeSub, if_pos (Nat.not_lt.mp hlt)]
    rfl

theorem shares_ratio_zero (hratio : q.readRatio = some r) (hr : 1 ≤ r) (hzero : s.multicast = 0) :
    shares q s = .error .divisionByZero := by
  have hone : 0 < 1 + r := by linarith
  have hread : 0 ≤ (q.internalComm : ℚ) * r / (1 + r) := by positivity
  have hwrite : 0 ≤ (q.internalComm : ℚ) / (1 + r) := by positivity
  have hsum := write_add_read (q := q) hr
  have hlt := internal_cast_lt q
  rw [shares, hratio]
  simp only [quotient_eq hone.ne', toSize_eq hwrite (by linarith), toSize_eq hread (by linarith), bind, Except.bind]
  rw [quotient, if_pos hzero]

theorem shares_none (hratio : q.readRatio = none) : shares q s = .ok ⟨q.internalComm, q.internalComm,
    2 * s.singlecast + s.multicast + s.amplification, 2 * s.singlecast + s.multicast + s.amplification⟩ := by
  rw [shares, hratio]
  rfl

end

/-! ## Token sizes -/

section
variable {q : CommOptions} {g g' : Graph} {s : ScalingSums} {sh : Shares} {v : Nat}

theorem tokenSize_eq {commScaling scalingSum : ℚ} {comm transmission : Nat} (hpos : 0 < commScaling)
    (hle : commScaling ≤ scalingSum)
    (hcomm : comm < 2 ^ 64) (ht : 0 < transmission) : ∃ size, tokenSize commScaling scalingSum comm transmission = .ok size ∧
      ((transmission * size : Nat) : ℚ) ≤ commScaling / scalingSum * comm := by
  have hsum : 0 < scalingSum := hpos.trans_le hle
  have ht' : (0 : ℚ) < transmission := by exact_mod_cast ht
  have hpart : commScaling / scalingSum * comm ≤ comm := by
    apply mul_le_of_le_one_left (Nat.cast_nonneg _)
    exact (div_le_one hsum).mpr hle
  have hnonneg : 0 ≤ commScaling / scalingSum * comm / transmission := by positivity
  have hlt : commScaling / scalingSum * comm / transmission < 2 ^ 64 := by
    calc commScaling / scalingSum * comm / transmission
        ≤ commScaling / scalingSum * comm := div_le_self (by positivity) (by exact_mod_cast ht)
      _ ≤ comm := hpart
      _ < 2 ^ 64 := by exact_mod_cast hcomm
  refine ⟨⌊commScaling / scalingSum * comm / transmission⌋₊, ?_, ?_⟩
  · simp only [tokenSize, quotient_eq hsum.ne', quotient_eq ht'.ne', toSize_eq hnonneg hlt, bind, Except.bind]
  · rw [Nat.cast_mul, mul_comm]
    exact (le_div_iff₀ ht').mp (Nat.floor_le hnonneg)

theorem tokenSize_zero {commScaling scalingSum : ℚ} {comm : Nat} (hsum : 0 < scalingSum) :
    tokenSize commScaling scalingSum comm 0 = .error .divisionByZero := by
  simp only [tokenSize, quotient_eq hsum.ne', bind, Except.bind, Nat.cast_zero]
  rw [quotient, if_pos rfl]

/-- The sums are large enough for the parts of the channels. -/
structure Funded (q : CommOptions) (g : Graph) (sh : Shares) : Prop where
  singlecast : sumOver g (singlecastScaling q g) ≤ sh.singlecastSum
  multicast : sumOver g (multicastScaling q g) ≤ sh.multicastSum
  singlecast_lt : sh.singlecastComm < 2 ^ 64
  multicast_lt : sh.multicastWrite < 2 ^ 64

/-- What may be written to the FIFO `v` in an iteration of the graph. -/
def writtenShare (q : CommOptions) (g : Graph) (sh : Shares) (v : Nat) : ℚ :=
  sh.singlecastComm / sh.singlecastSum * singlecastScaling q g v + sh.multicastWrite / sh.multicastSum * multicastScaling q g v

def readShare (q : CommOptions) (g : Graph) (sh : Shares) (v : Nat) : ℚ :=
  sh.singlecastComm / sh.singlecastSum * singlecastScaling q g v + sh.multicastWrite / sh.multicastSum * amplifiedScaling q g v

def Fires (g : Graph) (v : Nat) : Prop :=
  ∀ e, (e ∈ g.inEdges v → g.repCount? e.source ≠ some 0) ∧ (e ∈ g.outEdges v → g.repCount? e.target ≠ some 0)

/-- The numbers of tokens in an iteration of the graph fit a `size_t`. -/
structure Fits (g : Graph) : Prop where
  repCount : ∀ v r, g.repCount? v = some r → r < 2 ^ 64
  channel : ∀ v, g.isFifo v = true → ∀ e ∈ g.inEdges v, tokensPerIteration g e e.source < 2 ^ 64

theorem Fits.transmission (h : Fits g) (hv : g.isFifo v = true) {e : Edge} (he : e ∈ g.inEdges v) :
    tokensTransmission g e e.source = tokensPerIteration g e e.source := Nat.mod_eq_of_lt (h.channel v hv e he)

theorem Fits.transmission_one (h : Fits g) {e : Edge} {u r : Nat} (htok : e.tokens = 1) (hr : g.repCount? u = some r) :
    tokensTransmission g e u = r := by
  rw [tokensTransmission, tokensPerIteration, htok, hr, Option.getD_some, Nat.one_mul]
  exact Nat.mod_eq_of_lt (h.repCount u r hr)

theorem setTokenSize_fifo (hw : Wired g) (hfits : Fits g) (hf : Funded q g sh) (hpos : 0 < q.commScaling v)
    {name : String} {t c d : Nat}
    (hv : g.vertices[v]? = some ⟨name, .fifo t c d⟩) :
    ∃ e size, g.inEdges v = [e] ∧ setTokenSize q g s sh ⟨name, .fifo t c d⟩ v = .ok ⟨name, .fifo size c d⟩ ∧
      ((tokensPerIteration g e e.source * size : Nat) : ℚ) ≤ writtenShare q g sh v ∧
      (((g.outEdges v).length * (tokensPerIteration g e e.source * size) : Nat) : ℚ) ≤ readShare q g sh v := by
  have hfifo : g.isFifo v = true := isFifo_iff.mpr ⟨name, t, c, d, hv⟩
  have hlt := (List.getElem?_eq_some_iff.mp hv).1
  obtain ⟨e, hin, ht, hne, -⟩ := hw.fifo v hfifo
  have hone : 1 ≤ (g.outEdges v).length := List.length_pos_iff.mpr hne
  have htrans := hfits.transmission hfifo (hin ▸ List.mem_singleton_self e)
  by_cases hmany : 1 < (g.outEdges v).length
  · have hm : multicastScaling q g v = q.commScaling v := if_pos ⟨hfifo, hmany⟩
    have hs : singlecastScaling q g v = 0 := if_neg fun h => h.2 hmany
    have hle : q.commScaling v ≤ sh.multicastSum := hm ▸ (le_sumOver multicastScaling_nonneg hlt).trans hf.multicast
    obtain ⟨size, hsize, hbytes⟩ := tokenSize_eq hpos hle hf.multicast_lt ht
    have hshare : writtenShare q g sh v = q.commScaling v / sh.multicastSum * sh.multicastWrite := by
      rw [writtenShare, hs, hm]
      ring
    refine ⟨e, size, hin, ?_, hshare ▸ hbytes, ?_⟩
    · simp only [setTokenSize, hin, htrans, asserted, if_pos hone, if_pos hmany, hsize, bind, Except.bind]
      rfl
    · have hread : readShare q g sh v = (g.outEdges v).length * writtenShare q g sh v := by
        rw [readShare, writtenShare, amplifiedScaling, hs]
        ring
      rw [hread, Nat.cast_mul]
      exact mul_le_mul_of_nonneg_left (hshare ▸ hbytes) (Nat.cast_nonneg _)
  · have hm : multicastScaling q g v = 0 := if_neg fun h => hmany h.2
    have hs : singlecastScaling q g v = q.commScaling v := if_pos ⟨hfifo, hmany⟩
    have hle : q.commScaling v ≤ sh.singlecastSum := hs ▸ (le_sumOver singlecastScaling_nonneg hlt).trans hf.singlecast
    obtain ⟨size, hsize, hbytes⟩ := tokenSize_eq hpos hle hf.singlecast_lt ht
    have hshare : writtenShare q g sh v = q.commScaling v / sh.singlecastSum * sh.singlecastComm := by
      rw [writtenShare, hs, hm]
      ring
    refine ⟨e, size, hin, ?_, hshare ▸ hbytes, ?_⟩
    · simp only [setTokenSize, hin, htrans, asserted, if_pos hone, if_neg hmany, hsize, bind, Except.bind]
      rfl
    · have hread : readShare q g sh v = writtenShare q g sh v := by
        rw [readShare, writtenShare, amplifiedScaling, hm]
        ring
      rw [hread, show (g.outEdges v).length = 1 by omega, Nat.one_mul]
      exact hshare ▸ hbytes

/-- With which scaling, sum and bytes the register `v` gets its token size. -/
theorem setTokenSize_register (sh : Shares) (hw : Wired g) (hfits : Fits g) {name : String} {t : Nat}
    (hv : g.vertices[v]? = some ⟨name, .register t⟩) :
    ∃ sum comm repCount, q.commScaling v ≤ sum ∧ comm < 2 ^ 64 ∧ (Fires g v ↔ 0 < repCount) ∧
      setTokenSize q g (sumsOf q g) sh ⟨name, .register t⟩ v =
        (tokenSize (q.commScaling v) sum comm repCount).map fun size => ⟨name, .register size⟩ := by
  have hreg : g.isRegister v = true := isRegister_iff.mpr ⟨name, t, hv⟩
  have hlt := (List.getElem?_eq_some_iff.mp hv).1
  obtain ⟨e, hin, hout, htok, hact⟩ | ⟨e, hin, hout, htok, hact⟩ := hw.register v hreg
  · obtain ⟨r, hr⟩ := Option.isSome_iff_exists.mp hact
    have hscaling : inputScaling q g v = q.commScaling v := by simp [inputScaling, hreg, hin, hout]
    refine ⟨sumOver g (inputScaling q g), q.inputComm, r, hscaling ▸ le_sumOver inputScaling_nonneg hlt, q.input_lt, ?_, ?_⟩
    · simp [Fires, hin, hout, hr, Nat.pos_iff_ne_zero]
    · simp only [setTokenSize, hin, hout, hfits.transmission_one htok hr, sumsOf]
      rfl
  · obtain ⟨r, hr⟩ := Option.isSome_iff_exists.mp hact
    have hscaling : outputScaling q g v = q.commScaling v := by simp [outputScaling, hreg, hin]
    refine ⟨sumOver g (outputScaling q g), q.outputComm, r, hscaling ▸ le_sumOver outputScaling_nonneg hlt, q.output_lt, ?_, ?_⟩
    · simp [Fires, hin, hout, hr, Nat.pos_iff_ne_zero]
    · simp only [setTokenSize, hin, hout, hfits.transmission_one htok hr, sumsOf]
      rfl

/-! ## All channels -/

theorem bind_eq_ok {α β : Type} {m : Except CommError α} {f : α → Except CommError β} {b : β} (h : m >>= f = .ok b) :
    ∃ a, m = .ok a ∧ f a = .ok b := by
  cases m with
  | error e => cases h
  | ok a => exact ⟨a, rfl, h⟩

theorem plain_setTokenSize {vi vi' : VertexInfo} (h : setTokenSize q g s sh vi v = .ok vi') : plain vi' = plain vi := by
  obtain ⟨name, type⟩ := vi
  unfold setTokenSize at h
  split at h
  · rename_i htype _
    dsimp only at htype
    subst htype
    obtain ⟨_, -, h⟩ := bind_eq_ok h
    dsimp only at h
    split at h
    · obtain ⟨size, -, h⟩ := bind_eq_ok h
      cases h
      rfl
    · obtain ⟨size, -, h⟩ := bind_eq_ok h
      cases h
      rfl
  · rename_i htype _ _
    dsimp only at htype
    subst htype
    obtain ⟨size, -, h⟩ := bind_eq_ok h
    cases h
    rfl
  · rename_i htype _ _
    dsimp only at htype
    subst htype
    obtain ⟨size, -, h⟩ := bind_eq_ok h
    cases h
    rfl
  · cases h
  · cases h
    rfl
  · cases h

/-- Something is drawn for each channel. -/
def Scaled (q : CommOptions) (g : Graph) : Prop := ∀ v < g.vertices.length, ¬ g.IsActor v → 0 < q.graphCommScaling v

theorem Scaled.pos (h : Scaled q g) (hv : v < g.vertices.length) (hact : ¬ g.IsActor v) : 0 < q.commScaling v :=
  lt_max_of_lt_right (h v hv hact)

theorem setTokenSize_ok (hw : Wired g) (hfits : Fits g) (hf : Funded q g sh) (hscaled : Scaled q g) {vi : VertexInfo}
    (hv : g.vertices[v]? = some vi) (hfires : g.isRegister v = true → Fires g v) :
    ∃ vi', setTokenSize q g (sumsOf q g) sh vi v = .ok vi' := by
  have hlt := (List.getElem?_eq_some_iff.mp hv).1
  obtain ⟨name, type⟩ := vi
  cases type with
  | actor r => exact ⟨⟨name, .actor r⟩, by simp only [setTokenSize]; rfl⟩
  | fifo t c d =>
    have hfifo : g.isFifo v = true := isFifo_iff.mpr ⟨name, t, c, d, hv⟩
    obtain ⟨e, size, -, hsize, -⟩ := setTokenSize_fifo (s := sumsOf q g) hw hfits hf (hscaled.pos hlt (isFifo_not_actor hfifo)) hv
    exact ⟨_, hsize⟩
  | register t =>
    have hreg : g.isRegister v = true := isRegister_iff.mpr ⟨name, t, hv⟩
    obtain ⟨sum, comm, repCount, hle, hcomm, hrep, heq⟩ := setTokenSize_register sh hw hfits hv
    obtain ⟨size, hsize, -⟩ := tokenSize_eq (hscaled.pos hlt (isRegister_not_actor hreg)) hle hcomm (hrep.mp (hfires hreg))
    exact ⟨⟨name, .register size⟩, by rw [heq, hsize]; rfl⟩

theorem setTokenSize_error (hw : Wired g) (hfits : Fits g) (hscaled : Scaled q g) {vi : VertexInfo} (hv : g.vertices[v]? = some vi)
    (hreg : g.isRegister v = true) (hfires : ¬ Fires g v) :
    setTokenSize q g (sumsOf q g) sh vi v = .error .divisionByZero := by
  obtain ⟨name, t, hvi⟩ := isRegister_iff.mp hreg
  rw [hv] at hvi
  cases hvi
  have hpos := hscaled.pos (List.getElem?_eq_some_iff.mp hv).1 (isRegister_not_actor hreg)
  obtain ⟨sum, comm, repCount, hle, -, hrep, heq⟩ := setTokenSize_register sh hw hfits hv
  obtain rfl : repCount = 0 := Nat.eq_zero_of_not_pos fun h => hfires (hrep.mpr h)
  rw [heq, tokenSize_zero (hpos.trans_le hle)]
  rfl

end

/-! ## The budget -/

section
variable {q : CommOptions} {g g' : Graph} {sh : Shares}

theorem sum_filter_le {p : Nat → Bool} {f : Nat → Nat} {w : Nat → ℚ} (l : List Nat) (hw : ∀ v, 0 ≤ w v)
    (h : ∀ v, p v = true → (f v : ℚ) ≤ w v) : ((((l.filter p).map f).sum : Nat) : ℚ) ≤ (l.map w).sum := by
  induction l with
  | nil => simp
  | cons v l ih =>
    by_cases hv : p v = true
    · rw [List.filter_cons_of_pos hv, List.map_cons, List.sum_cons, List.map_cons, List.sum_cons, Nat.cast_add]
      exact add_le_add (h v hv) ih
    · rw [List.filter_cons_of_neg hv, List.map_cons, List.sum_cons]
      exact ih.trans (le_add_of_nonneg_left (hw v))

theorem bytesInto_alike (h : Alike g g') {v : Nat} {e : Edge} (hin : g.inEdges v = [e]) :
    bytesInto g' v = tokensPerIteration g e e.source * channelTSize g' v := by
  rw [bytesInto, h.inEdges, hin]
  simp [tokensPerIteration, h.repCount?]

theorem bytesOutOf_alike (h : Alike g g') {v n : Nat} (hout : ∀ e ∈ g.outEdges v, tokensPerIteration g e e.target = n) :
    bytesOutOf g' v = (g.outEdges v).length * (n * channelTSize g' v) := by
  have hmap : (g.outEdges v).map (fun e => tokensPerIteration g' e e.target * channelTSize g' v) =
      (g.outEdges v).map fun _ => n * channelTSize g' v := by
    apply List.map_congr_left
    intro e he
    rw [← hout e he, tokensPerIteration, tokensPerIteration, h.repCount?]
  rw [bytesOutOf, h.outEdges, hmap, List.map_const', List.sum_replicate]
  simp

theorem sizes_ok (hw : Wired g) (hfits : Fits g) (hf : Funded q g sh) (hscaled : Scaled q g)
    (hfires : ∀ v, g.isRegister v = true → Fires g v) :
    ∃ vertices, (g.vertices.zipIdx.mapM fun (vi, v) => setTokenSize q g (sumsOf q g) sh vi v) = .ok vertices ∧
      Alike g { g with vertices := vertices } ∧ ∀ v, g.isFifo v = true →
        (bytesInto { g with vertices := vertices } v : ℚ) ≤ writtenShare q g sh v ∧
        (bytesOutOf { g with vertices := vertices } v : ℚ) ≤ readShare q g sh v := by
  obtain ⟨vertices, hvertices, hall⟩ := Pointwise.mapM_ok (l := g.vertices.zipIdx)
    (f := fun (vi, v) => setTokenSize q g (sumsOf q g) sh vi v) fun (vi, v) hmem =>
      setTokenSize_ok hw hfits hf hscaled (List.mem_zipIdx_iff_getElem?.mp hmem) (hfires v)
  obtain ⟨hlen, hall⟩ := List.forall₂_iff_get.mp hall
  have hget : ∀ v vi, g.vertices[v]? = some vi → ∃ vi', vertices[v]? = some vi' ∧
      setTokenSize q g (sumsOf q g) sh vi v = .ok vi' := by
    intro v vi hv
    obtain ⟨hlt, rfl⟩ := List.getElem?_eq_some_iff.mp hv
    have hlt' : v < vertices.length := by
      rw [← hlen, List.length_zipIdx]
      exact hlt
    refine ⟨vertices[v], List.getElem?_eq_getElem hlt', ?_⟩
    simpa using hall v (by simpa using hlt) hlt'
  have halike : Alike g { g with vertices := vertices } := by
    refine ⟨rfl, List.ext_getElem? fun v => ?_⟩
    rw [List.getElem?_map, List.getElem?_map]
    cases hv : g.vertices[v]? with
    | none =>
      rw [List.getElem?_eq_none_iff] at hv
      rw [List.getElem?_eq_none (by rw [← hlen, List.length_zipIdx]; exact hv)]
    | some vi =>
      obtain ⟨vi', hvi', hset⟩ := hget v vi hv
      rw [hvi', Option.map_some, Option.map_some, plain_setTokenSize hset]
  refine ⟨vertices, hvertices, halike, fun v hv => ?_⟩
  obtain ⟨name, t, c, d, hvi⟩ := isFifo_iff.mp hv
  have hpos := hscaled.pos (List.getElem?_eq_some_iff.mp hvi).1 (isFifo_not_actor hv)
  obtain ⟨e, size, hin, hset, hwritten, hread⟩ := setTokenSize_fifo (s := sumsOf q g) hw hfits hf hpos hvi
  obtain ⟨vi', hvi', hset'⟩ := hget v _ hvi
  rw [hset] at hset'
  cases hset'
  have hsize : channelTSize { g with vertices := vertices } v = size := by
    unfold channelTSize
    rw [hvi']
    rfl
  obtain ⟨e', hin', -, -, hall'⟩ := hw.fifo v hv
  rw [hin] at hin'
  cases hin'
  rw [bytesInto_alike halike hin, bytesOutOf_alike halike hall', hsize]
  exact ⟨hwritten, hread⟩

theorem sizes_error (hw : Wired g) (hfits : Fits g) (hf : Funded q g sh) (hscaled : Scaled q g) {v : Nat}
    (hv : g.isRegister v = true)
    (hfires : ¬ Fires g v) :
    (g.vertices.zipIdx.mapM fun (vi, v) => setTokenSize q g (sumsOf q g) sh vi v) = .error .divisionByZero := by
  apply Pointwise.mapM_error
  · intro (vi, u) hmem
    have hu := List.mem_zipIdx_iff_getElem?.mp hmem
    by_cases hreg : g.isRegister u = true → Fires g u
    · exact .inr (setTokenSize_ok hw hfits hf hscaled hu hreg)
    · obtain ⟨hreg, hno⟩ := Classical.not_imp.mp hreg
      exact .inl (setTokenSize_error hw hfits hscaled hu hreg hno)
  · obtain ⟨name, t, hvi⟩ := isRegister_iff.mp hv
    exact ⟨(_, v), List.mem_zipIdx_iff_getElem?.mpr hvi, setTokenSize_error hw hfits hscaled hvi hv hfires⟩

theorem sum_writtenShare : sumOver g (writtenShare q g sh) = sh.singlecastComm / sh.singlecastSum *
    sumOver g (singlecastScaling q g) +
    sh.multicastWrite / sh.multicastSum * sumOver g (multicastScaling q g) := by
  rw [← sumOver_mul, ← sumOver_mul, ← sumOver_add]
  rfl

theorem sum_readShare : sumOver g (readShare q g sh) = sh.singlecastComm / sh.singlecastSum * sumOver g (singlecastScaling q g) +
    sh.multicastWrite / sh.multicastSum * sumOver g (amplifiedScaling q g) := by
  rw [← sumOver_mul, ← sumOver_mul, ← sumOver_add]
  rfl

theorem Funded.writtenShare_nonneg (hf : Funded q g sh) (v : Nat) : 0 ≤ writtenShare q g sh v := by
  have hs := (sumOver_nonneg singlecastScaling_nonneg).trans hf.singlecast
  have hm := (sumOver_nonneg multicastScaling_nonneg).trans hf.multicast
  have hs' := singlecastScaling_nonneg (q := q) (g := g) v
  have hm' := multicastScaling_nonneg (q := q) (g := g) v
  unfold writtenShare
  positivity

theorem Funded.readShare_nonneg (hf : Funded q g sh) (v : Nat) : 0 ≤ readShare q g sh v := by
  have hs := (sumOver_nonneg singlecastScaling_nonneg).trans hf.singlecast
  have hm := (sumOver_nonneg multicastScaling_nonneg).trans hf.multicast
  have hs' := singlecastScaling_nonneg (q := q) (g := g) v
  have hm' := amplifiedScaling_nonneg (q := q) (g := g) v
  unfold readShare
  positivity

/-- The bytes of an iteration against what was wanted. -/
def InBudget (q : CommOptions) (written read : Nat) : Prop :=
  written + read ≤ q.internalComm ∧ ∀ r, q.readRatio = some r →
    (written : ℚ) ≤ q.internalComm / (1 + r) ∧ (read : ℚ) ≤ q.internalComm * r / (1 + r)

/-- The step finds token sizes within the budget, or reports an error. -/
def WithinBudget (q : CommOptions) (g : Graph) : Prop :=
  match assignTokenSizes q g with
  | .ok g' => InBudget q (internalBytesWritten g') (internalBytesRead g')
  | .error (.runtimeError _) => True
  | .error _ => False

theorem within_iff_fires (hw : Wired g) (hfits : Fits g) (hscaled : Scaled q g) (hsh : shares q (sumsOf q g) = .ok sh)
    (hf : Funded q g sh)
    (hbudget : ∀ written read : Nat, (written : ℚ) ≤ sumOver g (writtenShare q g sh) →
      (read : ℚ) ≤ sumOver g (readShare q g sh) → InBudget q written read) :
    WithinBudget q g ↔ ∀ v, g.isRegister v = true → Fires g v := by
  unfold WithinBudget assignTokenSizes
  simp only [scalingSums_eq hw, hsh, bind, Except.bind]
  by_cases hfires : ∀ v, g.isRegister v = true → Fires g v
  · obtain ⟨vertices, hvertices, halike, hbytes⟩ := sizes_ok hw hfits hf hscaled hfires
    rw [hvertices]
    refine iff_of_true (hbudget _ _ ?_ ?_) hfires
    · rw [internalBytesWritten, halike.length, show Graph.isFifo _ = g.isFifo from funext halike.isFifo]
      exact sum_filter_le _ hf.writtenShare_nonneg fun v hv => (hbytes v hv).1
    · rw [internalBytesRead, halike.length, show Graph.isFifo _ = g.isFifo from funext halike.isFifo]
      exact sum_filter_le _ hf.readShare_nonneg fun v hv => (hbytes v hv).2
  · have hno := hfires
    simp only [not_forall] at hno
    obtain ⟨v, hv, hno⟩ := hno
    rw [sizes_error hw hfits hf hscaled hv hno]
    exact iff_of_false id hfires

def HasMulticast (g : Graph) : Prop := ∃ v, g.isFifo v = true ∧ 1 < (g.outEdges v).length

/-- The multicast channels alone would be written more than the ratio allows. -/
def TooLittleWritten (q : CommOptions) (g : Graph) : Prop :=
  ∃ r, q.readRatio = some r ∧
    writeComm q r < multicastWrite q r (sumOver g (amplifiedScaling q g) / sumOver g (multicastScaling q g))

theorem multicast_zero (h : ¬ HasMulticast g) : sumOver g (multicastScaling q g) = 0 := by
  have hzero : multicastScaling q g = fun _ => 0 := funext fun v => if_neg fun hv => h ⟨v, hv⟩
  rw [sumOver, hzero]
  simp

theorem multicast_pos (hscaled : Scaled q g) (h : HasMulticast g) : 0 < sumOver g (multicastScaling q g) := by
  obtain ⟨v, hv, hmany⟩ := h
  obtain ⟨name, t, c, d, hvi⟩ := isFifo_iff.mp hv
  have hlt := (List.getElem?_eq_some_iff.mp hvi).1
  have hscaling : multicastScaling q g v = q.commScaling v := if_pos ⟨hv, hmany⟩
  calc 0 < q.commScaling v := hscaled.pos hlt (isFifo_not_actor hv)
    _ = multicastScaling q g v := hscaling.symm
    _ ≤ sumOver g (multicastScaling q g) := le_sumOver multicastScaling_nonneg hlt

theorem within_of_none (hw : Wired g) (hfits : Fits g) (hscaled : Scaled q g) (hratio : q.readRatio = none) :
    WithinBudget q g ↔ ∀ v, g.isRegister v = true → Fires g v := by
  have hs := sumOver_nonneg (g := g) (singlecastScaling_nonneg (q := q) (g := g))
  have hm := sumOver_nonneg (g := g) (multicastScaling_nonneg (q := q) (g := g))
  have ha := sumOver_nonneg (g := g) (amplifiedScaling_nonneg (q := q) (g := g))
  refine within_iff_fires hw hfits hscaled (shares_none hratio) ?_ fun written read hwritten hread => ⟨?_, fun r hr => ?_⟩
  · exact ⟨by simp only [sumsOf]; linarith, by simp only [sumsOf]; linarith, q.internal_lt, q.internal_lt⟩
  · rw [sum_writtenShare] at hwritten
    rw [sum_readShare] at hread
    simp only [sumsOf] at hwritten hread
    generalize sumOver g (singlecastScaling q g) = S at hs hwritten hread
    generalize sumOver g (multicastScaling q g) = M at hm hwritten hread
    generalize sumOver g (amplifiedScaling q g) = A at ha hwritten hread
    have hall : (q.internalComm : ℚ) / (2 * S + M + A) * (2 * S + M + A) ≤ q.internalComm := by
      by_cases hzero : 2 * S + M + A = 0
      · rw [hzero, mul_zero]
        exact Nat.cast_nonneg _
      · rw [div_mul_cancel₀ _ hzero]
    have hsum : (written : ℚ) + read ≤ q.internalComm := by linarith
    exact_mod_cast hsum
  · rw [hratio] at hr
    cases hr

theorem within_of_ratio {r : ℚ} (hw : Wired g) (hfits : Fits g) (hscaled : Scaled q g) (hratio : q.readRatio = some r) (hr : 1 ≤ r)
    (hmulti : HasMulticast g) :
    WithinBudget q g ↔ TooLittleWritten q g ∨ ∀ v, g.isRegister v = true → Fires g v := by
  have hpos := multicast_pos hscaled hmulti
  have htwice := twice_multicast_le (q := q) (g := g)
  have hs := sumOver_nonneg (g := g) (singlecastScaling_nonneg (q := q) (g := g))
  have hshares := shares_ratio (s := sumsOf q g) hratio hr hpos htwice
  have hx : 2 ≤ sumOver g (amplifiedScaling q g) / sumOver g (multicastScaling q g) := (le_div_iff₀ hpos).mpr htwice
  have hmul := multicastWrite_mul_le (q := q) hr hx
  have hwrite := writeComm_le (q := q) hr
  have hread' := readComm_le (q := q) hr
  have htotal := write_add_read (q := q) hr
  by_cases hlittle : writeComm q r < multicastWrite q r (sumOver g (amplifiedScaling q g) / sumOver g (multicastScaling q g))
  · rw [sumsOf, if_pos hlittle] at hshares
    refine iff_of_true ?_ (.inl ⟨r, hratio, hlittle⟩)
    simp only [WithinBudget, assignTokenSizes, scalingSums_eq hw, sumsOf, hshares, bind, Except.bind]
  · rw [sumsOf, if_neg hlittle] at hshares
    have hno : ¬ TooLittleWritten q g := by
      intro ⟨r', hr', hlt⟩
      rw [hratio] at hr'
      cases hr'
      exact hlittle hlt
    rw [or_iff_right hno]
    have hle := Nat.not_lt.mp hlittle
    have hlt : writeComm q r < 2 ^ 64 := by
      have hnonneg : 0 ≤ (q.internalComm : ℚ) * r / (1 + r) := by positivity
      have hcast : (writeComm q r : ℚ) < 2 ^ 64 := by linarith [internal_cast_lt q]
      exact_mod_cast hcast
    refine within_iff_fires hw hfits hscaled hshares ⟨le_refl _, le_refl _, (Nat.sub_le _ _).trans_lt hlt, hle.trans_lt hlt⟩
      fun written read hwritten hread => ?_
    rw [sum_writtenShare] at hwritten
    rw [sum_readShare] at hread
    dsimp only at hwritten hread
    rw [Nat.cast_sub hle] at hwritten hread
    generalize multicastWrite q r (sumOver g (amplifiedScaling q g) / sumOver g (multicastScaling q g)) = MW
      at hle hmul hwritten hread
    have hdiff : (MW : ℚ) ≤ writeComm q r := by exact_mod_cast hle
    generalize sumOver g (singlecastScaling q g) = S at hs hwritten hread
    generalize sumOver g (multicastScaling q g) = M at hpos hmul hwritten hread
    generalize sumOver g (amplifiedScaling q g) = A at hmul hread
    have hsingle : ((writeComm q r : ℚ) - MW) / S * S ≤ writeComm q r - MW := by
      by_cases hzero : S = 0
      · rw [hzero, mul_zero]
        linarith
      · rw [div_mul_cancel₀ _ hzero]
    have hmultiWrite : (MW : ℚ) / M * M = MW := div_mul_cancel₀ _ hpos.ne'
    have hmultiRead : (MW : ℚ) / M * A = MW * (A / M - 1) + MW := by ring
    have hw' : (written : ℚ) ≤ q.internalComm / (1 + r) := by linarith
    have hr' : (read : ℚ) ≤ q.internalComm * r / (1 + r) := by linarith
    refine ⟨?_, fun r' heq => ?_⟩
    · have hsum : (written : ℚ) + read ≤ q.internalComm := by linarith
      exact_mod_cast hsum
    · rw [hratio] at heq
      cases heq
      exact ⟨hw', hr'⟩

/-- With a read ratio and no multicast channel there is nothing to divide by. -/
theorem not_within_of_ratio {r : ℚ} (hw : Wired g) (hratio : q.readRatio = some r) (hr : 1 ≤ r) (hmulti : ¬ HasMulticast g) :
    assignTokenSizes q g = .error .divisionByZero := by
  have hshares := shares_ratio_zero (s := sumsOf q g) hratio hr (multicast_zero hmulti)
  simp only [assignTokenSizes, scalingSums_eq hw, hshares, bind, Except.bind]

/-- Where no number of tokens is cut off, the step keeps the budget or reports an error exactly if there
is a multicast channel for a read ratio, and each actor at a register fires where the sizes are assigned. -/
theorem budget_iff (connected_components : Graph → Nat × (Nat → Nat)) (o : Options) (ds ds' : List Nat) (st : Generator)
    (h : generate connected_components o ds = some (st, ds')) (g : Graph) (hlike : Alike st.g g) (hfits : Fits g) (q : CommOptions)
    (hscaled : Scaled q g) (hratio : ∀ r, q.readRatio = some r → 1 ≤ r) :
    WithinBudget q g ↔ (q.readRatio ≠ none → HasMulticast g) ∧
      (TooLittleWritten q g ∨ ∀ v, g.isRegister v = true → Fires g v) := by
  have hw := hlike.wired (generate_wired h)
  cases hread : q.readRatio with
  | none =>
    have hno : ¬ TooLittleWritten q g := fun ⟨r, hr, _⟩ => by
      rw [hread] at hr
      cases hr
    rw [within_of_none hw hfits hscaled hread, or_iff_right hno]
    exact ⟨fun hall => ⟨fun hne => absurd rfl hne, hall⟩, And.right⟩
  | some r =>
    by_cases hmulti : HasMulticast g
    · rw [within_of_ratio hw hfits hscaled hread (hratio r hread) hmulti]
      exact ⟨fun hor => ⟨fun _ => hmulti, hor⟩, And.right⟩
    · refine iff_of_false ?_ fun hcond => hmulti (hcond.1 (by simp))
      rw [WithinBudget, not_within_of_ratio hw hread (hratio r hread) hmulti]
      exact id

theorem fires_of_positive (h : ∀ v < g.vertices.length, g.repCount? v ≠ some 0) (v : Nat) : Fires g v := by
  have hall : ∀ v, g.repCount? v ≠ some 0 := fun v hv => h v (Graph.repCount?_lt hv) hv
  exact fun e => ⟨fun _ => hall _, fun _ => hall _⟩

theorem fits_of_bounded (hrep : ∀ v < g.vertices.length, (g.repCount? v).getD 0 < 2 ^ 64)
    (hchannel : ∀ v < g.vertices.length, ∀ e ∈ g.inEdges v, tokensPerIteration g e e.source < 2 ^ 64) : Fits g where
  repCount v r hr := by
    have hlt := hrep v (Graph.repCount?_lt hr)
    rwa [hr, Option.getD_some] at hlt
  channel v hv := by
    obtain ⟨name, t, c, d, hvi⟩ := isFifo_iff.mp hv
    exact hchannel v (List.getElem?_eq_some_iff.mp hvi).1

end

def twiceRead : CommOptions := ⟨fun _ => 1, 90, 10, 10, some 2, by decide, by decide, by decide⟩

/-- One actor writes a channel that two others read. -/
theorem budget_iff_multicast : ∃ st ds', generate (fun _ => (1, fun _ => 0))
    ⟨none, [("a", 1)], true, false, false, false, true, true⟩
    [3, 3, 1, 1, 2, 2, 2, 3, 0, 1, 1, 0, 0, 7] = some (st, ds') ∧ HasMulticast st.g ∧ WithinBudget twiceRead st.g := by
  have hrun : ((generate (fun _ => (1, fun _ => 0)) ⟨none, [("a", 1)], true, false, false, false, true, true⟩
      [3, 3, 1, 1, 2, 2, 2, 3, 0, 1, 1, 0, 0, 7]).map fun r => (r.1.g.isFifo 3, (r.1.g.outEdges 3).length,
        decide (∀ v < r.1.g.vertices.length, r.1.g.repCount? v ≠ some 0),
        decide (∀ v < r.1.g.vertices.length, (r.1.g.repCount? v).getD 0 < 2 ^ 64),
        decide (∀ v < r.1.g.vertices.length, ∀ e ∈ r.1.g.inEdges v, tokensPerIteration r.1.g e e.source < 2 ^ 64))) =
      some (true, 2, true, true, true) := by
    decide +kernel
  obtain ⟨⟨st, ds'⟩, h, heq⟩ := Option.map_eq_some_iff.mp hrun
  simp only [Prod.mk.injEq, decide_eq_true_eq] at heq
  obtain ⟨hfifo, hout, hrep, hfew, hpass⟩ := heq
  have hmulti : HasMulticast st.g := ⟨3, hfifo, by omega⟩
  refine ⟨st, ds', h, hmulti, ?_⟩
  refine (budget_iff _ _ _ _ _ h st.g ⟨rfl, rfl⟩ (fits_of_bounded hfew hpass) twiceRead (fun _ _ _ => zero_lt_one) ?_).mpr
    ⟨fun _ => hmulti, .inr fun v _ => fires_of_positive hrep v⟩
  intro r hr
  cases hr
  exact one_le_two

def evenlyRead : CommOptions := ⟨fun _ => 1, 100, 0, 0, some 1, by decide, by decide, by decide⟩

/-- One channel with one reader, which could carry 50 bytes: zero is divided by zero. -/
theorem no_multicast_channel : ∃ st ds', generate (fun _ => (1, fun _ => 0))
    ⟨none, [("a", 1)], true, false, false, false, false, false⟩
    [2, 2, 1, 1, 2, 1, 1, 3, 0, 7] = some (st, ds') ∧ Scaled evenlyRead st.g ∧ st.g.isFifo 2 = true ∧
      (st.g.outEdges 2).length = 1 ∧ assignTokenSizes evenlyRead st.g = .error .divisionByZero ∧
          ¬ WithinBudget evenlyRead st.g := by
  have hrun : ((generate (fun _ => (1, fun _ => 0)) ⟨none, [("a", 1)], true, false, false, false, false, false⟩
      [2, 2, 1, 1, 2, 1, 1, 3, 0, 7]).map fun r => (r.1.g.vertices.length, r.1.g.isFifo 2, r.1.g.isFifo 0, r.1.g.isFifo 1,
        (r.1.g.outEdges 2).length)) = some (3, true, false, false, 1) := by
    decide +kernel
  obtain ⟨⟨st, ds'⟩, h, heq⟩ := Option.map_eq_some_iff.mp hrun
  obtain ⟨hlen, hfifo, hzero, hone, hout⟩ : st.g.vertices.length = 3 ∧ st.g.isFifo 2 = true ∧ st.g.isFifo 0 = false ∧
      st.g.isFifo 1 = false ∧ (st.g.outEdges 2).length = 1 := by
    simpa only [Prod.mk.injEq] using heq
  have hmulti : ¬ HasMulticast st.g := by
    intro ⟨v, hv, hmany⟩
    obtain ⟨name, t, c, d, hvi⟩ := isFifo_iff.mp hv
    have hlt := (List.getElem?_eq_some_iff.mp hvi).1
    obtain rfl | rfl | rfl : v = 0 ∨ v = 1 ∨ v = 2 := by omega
    · rw [hzero] at hv
      cases hv
    · rw [hone] at hv
      cases hv
    · omega
  have herror := not_within_of_ratio (q := evenlyRead) (generate_wired h) rfl (le_refl 1) hmulti
  refine ⟨st, ds', h, fun _ _ _ => zero_lt_one, hfifo, hout, herror, ?_⟩
  rw [WithinBudget, herror]
  exact id

end Generator

end SysteMoC.SNG
