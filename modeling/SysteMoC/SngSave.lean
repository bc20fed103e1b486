import SysteMoC.SngNet
import SysteMoC.Pointwise

/-!
# Saving a loaded graph

The document saved has one type for each list of ports, one instance for each actor and one
element for each channel.
-/

namespace SysteMoC.SNG

/-! ## Keys of actor types -/

def Direction.name : Direction → String
  | .input => "in"
  | .output => "out"

def Graph.ports (g : Graph) (v : Nat) : List (String × Direction) :=
  (g.inEdges v).map (fun e => (e.name, .input)) ++ (g.outEdges v).map fun e => (e.name, .output)

def Graph.key (g : Graph) (v : Nat) : String := actorTypeKey (g.inEdges v) (g.outEdges v)

def portElement (p : String × Direction) : PortElement := ⟨some p.1, some p.2.name⟩

/-- What the key has behind the bracket of a port. -/
def Direction.mark : Direction → List Char
  | .input => ['I', 'N', ']']
  | .output => ['O', 'U', 'T', ']']

def keyPart (p : String × Direction) : List Char := p.1.toList ++ '[' :: p.2.mark

theorem key_eq (g : Graph) (v : Nat) : (g.key v).toList = (g.ports v).flatMap keyPart := by
  have hjoin : ∀ (l : List String), (String.join l).toList = l.flatMap String.toList := by
    intro l
    simp
  unfold Graph.key actorTypeKey Graph.ports
  simp [hjoin, keyPart, Direction.mark, List.flatMap_def, Function.comp_def]

theorem no_bracket {s : String} (h : NameOk s) : '[' ∉ s.toList := by
  have hletter : ∀ c, isLetter c = true → c ≠ '[' := by
    intro c hc heq
    subst heq
    exact absurd hc (by decide)
  have halnum : ∀ c, isAlnum c = true → c ≠ '[' := by
    intro c hc heq
    subst heq
    exact absurd hc (by decide)
  have hrest : ∀ cs, identifierRest cs = true → '[' ∉ cs := by
    intro cs
    fun_induction identifierRest cs with
    | case1 => simp
    | case2 c cs ih =>
      intro h
      simp only [Bool.and_eq_true] at h
      simp only [List.mem_cons, not_or]
      exact ⟨by decide, (hletter c h.1).symm, ih h.2⟩
    | case3 c cs hdot ih =>
      intro h
      simp only [Bool.and_eq_true] at h
      simp only [List.mem_cons, not_or]
      exact ⟨(halnum c h.1).symm, ih h.2⟩
  obtain rfl | h := h
  · simp
  · unfold identifier at h
    split at h
    · cases h
    · rename_i c cs heq
      simp only [Bool.and_eq_true] at h
      rw [heq, List.mem_cons, not_or]
      exact ⟨(hletter c h.1).symm, hrest cs h.2⟩

theorem append_separator_inj {x : Char} {a b r s : List Char} (ha : x ∉ a) (hb : x ∉ b) (h : a ++ x :: r = b ++ x :: s) :
    a = b ∧ r = s := by
  induction a generalizing b with
  | nil =>
    cases b with
    | nil => exact ⟨rfl, by simpa using h⟩
    | cons c b =>
      simp only [List.nil_append, List.cons_append, List.cons.injEq] at h
      exact absurd (h.1 ▸ List.mem_cons_self) hb
  | cons c a ih =>
    cases b with
    | nil =>
      simp only [List.nil_append, List.cons_append, List.cons.injEq] at h
      exact absurd (h.1 ▸ List.mem_cons_self) ha
    | cons d b =>
      simp only [List.cons_append, List.cons.injEq] at h
      obtain ⟨rfl, rfl⟩ := ih (fun hm => ha (List.mem_cons_of_mem _ hm))
        (fun hm => hb (List.mem_cons_of_mem _ hm)) h.2
      exact ⟨by rw [h.1], rfl⟩

/-- The names hold no bracket, so the ports can be read off the key. -/
theorem keyPart_injective {l m : List (String × Direction)} (hl : ∀ p ∈ l, '[' ∉ p.1.toList)
    (hm : ∀ p ∈ m, '[' ∉ p.1.toList) (h : l.flatMap keyPart = m.flatMap keyPart) : l = m := by
  induction l generalizing m with
  | nil =>
    cases m with
    | nil => rfl
    | cons q m => simp [keyPart] at h
  | cons p l ih =>
    cases m with
    | nil => simp [keyPart] at h
    | cons q m =>
      simp only [List.flatMap_cons, keyPart, List.append_assoc, List.cons_append] at h
      obtain ⟨hname, hrest⟩ := append_separator_inj (hl p List.mem_cons_self) (hm q List.mem_cons_self) h
      obtain ⟨name, d⟩ := p
      obtain ⟨name', d'⟩ := q
      obtain rfl : name = name' := String.ext hname
      have hd : d = d' := by
        cases d <;> cases d' <;> first | rfl | simp [Direction.mark] at hrest
      subst hd
      rw [ih (fun p hp => hl p (List.mem_cons_of_mem _ hp)) (fun p hp => hm p (List.mem_cons_of_mem _ hp))
        (List.append_cancel_left hrest)]

theorem Net.Ok.ports_ok {n : Net} (h : n.Ok) (v : Nat) :
    ∀ p ∈ n.graph.ports v, NameOk p.1 := by
  intro p hp
  unfold Graph.ports at hp
  simp only [List.mem_append, List.mem_map, Graph.mem_inEdges, Graph.mem_outEdges] at hp
  obtain ⟨e, ⟨he, hev⟩, rfl⟩ | ⟨e, ⟨he, hev⟩, rfl⟩ := hp
  all_goals
    obtain ⟨i, ch, hi, ⟨he, _⟩ | ⟨he, _⟩⟩ := h.mem_edges he
    all_goals
      have hends := (h.chans ch (List.mem_of_getElem? hi)).ends
    · exact (hends _ (List.mem_append_left _ (mem_sourceEdges he).1)).2
    · exact (hends _ (List.mem_append_right _ (mem_targetEdges he).1)).2

theorem ports_of_key {n : Net} (h : n.Ok) {v w : Nat} (hkey : n.graph.key v = n.graph.key w) :
    n.graph.ports v = n.graph.ports w := by
  refine keyPart_injective (fun p hp => no_bracket (h.ports_ok v p hp))
    (fun p hp => no_bracket (h.ports_ok w p hp)) ?_
  rw [← key_eq, ← key_eq, hkey]

/-! ## What is saved -/

/-- The pool gives out names that are new, and keeps their form. -/
structure PoolOk (pool : List String → String → String) : Prop where
  fresh : ∀ used s, pool used s ∉ used
  form : ∀ used s, typeIdentifier s = true → typeIdentifier (pool used s) = true

/-- After the actors `done`. -/
structure ActorsSaved (g : Graph) (done : List Nat) (ctx : SNGDumpCTX) : Prop where
  instances : List.Forall₂ (fun v e => ∃ t, e = ⟨some (nameOf g v), some t⟩ ∧
    ctx.actorTypeCache.lookup (g.key v) = some t) done ctx.actorInstances
  cache : ∀ key t, ctx.actorTypeCache.lookup key = some t →
    ∃ v ∈ done, key = g.key v ∧ ⟨some t, (g.ports v).map portElement⟩ ∈ ctx.actorTypes
  types : ∀ e ∈ ctx.actorTypes, ∃ t, ∃ v ∈ done, e = ⟨some t, (g.ports v).map portElement⟩ ∧ typeIdentifier t = true
  typeNames : ctx.actorTypes.map (·.name) = ctx.typeNames.map some
  distinct : ctx.typeNames.Nodup
  channels : ctx.fifoConnections = []

theorem portElements (g : Graph) (v : Nat) : (g.inEdges v).map (fun e => (⟨some e.name, some "in"⟩ : PortElement)) ++
    (g.outEdges v).map (fun e => ⟨some e.name, some "out"⟩) = (g.ports v).map portElement := by
  simp [Graph.ports, portElement, Direction.name, Function.comp_def]

/-! ## Names of actor types -/

theorem isAlpha_toUpper {c : Char} (h : c.isAlpha = true) : c.toUpper.isAlpha = true := by
  unfold Char.isAlpha Char.isUpper Char.isLower at *
  unfold Char.toUpper
  split
  · rename_i hc
    simp only [Bool.or_eq_true, decide_eq_true_eq, Bool.and_eq_true] at *
    left
    simp only [ge_iff_le, UInt32.le_iff_toNat_le] at *
    simp at *
    bv_omega
  · exact h

theorem isLetter_toUpper {c : Char} (h : isLetter c = true) : isLetter c.toUpper = true := by
  unfold isLetter at *
  simp only [Bool.or_eq_true, beq_iff_eq] at *
  obtain h | rfl := h
  · exact .inl (isAlpha_toUpper h)
  · exact .inr (by decide)

theorem isTypeChar_toUpper {c : Char} (h : isAlnum c = true) : isTypeChar c.toUpper = true ∧ c.toUpper ≠ ':' := by
  have halnum : isAlnum c.toUpper = true := by
    unfold isAlnum at *
    simp only [Bool.or_eq_true] at *
    obtain h | h := h
    · exact .inl (isLetter_toUpper h)
    · have hno : c.toUpper = c := by
        unfold Char.toUpper
        unfold Char.isDigit at h
        simp only [Bool.and_eq_true, decide_eq_true_eq, ge_iff_le, UInt32.le_iff_toNat_le] at h
        rw [dif_neg]
        simp only [UInt32.le_iff_toNat_le]
        simp at *
        omega
      rw [hno]
      exact .inr h
  refine ⟨?_, ?_⟩
  · unfold isTypeChar
    simp [halnum]
  · intro heq
    rw [heq] at halnum
    exact absurd halnum (by decide)

theorem typeIdentifierRest_cons {c : Char} {cs : List Char} (hc : isTypeChar c = true) (hne : c ≠ ':')
    (h : typeIdentifierRest cs = true) : typeIdentifierRest (c :: cs) = true := by
  unfold typeIdentifierRest
  split
  · rename_i heq
    cases heq
  · rename_i heq
    cases heq
    exact absurd rfl hne
  · rename_i heq
    cases heq
    simp [hc, h]

theorem typeIdentifierRest_scope (cs : List Char) (h : identifierRest cs = true) :
    typeIdentifierRest (typeScope cs ++ ['A']) = true := by
  have hend : typeIdentifierRest ['A'] = true := by decide
  fun_induction identifierRest cs with
  | case1 => exact hend
  | case2 c cs ih =>
    simp only [Bool.and_eq_true] at h
    have hdot : c ≠ '.' := by
      intro heq
      rw [heq] at h
      exact absurd h.1 (by decide)
    unfold typeScope
    rw [if_pos List.mem_cons_self, if_pos rfl]
    unfold typeScope
    by_cases hmem : '.' ∈ c :: cs
    · rw [if_pos hmem, if_neg hdot]
      simp only [List.cons_append, List.nil_append, typeIdentifierRest, Bool.and_eq_true]
      exact ⟨isLetter_toUpper h.1, ih h.2⟩
    · rw [if_neg hmem]
      decide
  | case3 c cs _ ih =>
    simp only [Bool.and_eq_true] at h
    have hdot : c ≠ '.' := by
      intro heq
      rw [heq] at h
      exact absurd h.1 (by decide)
    unfold typeScope
    by_cases hmem : '.' ∈ c :: cs
    · rw [if_pos hmem, if_neg hdot]
      obtain ⟨hchar, hne⟩ := isTypeChar_toUpper h.1
      exact typeIdentifierRest_cons hchar hne (ih h.2)
    · rw [if_neg hmem]
      exact hend

/-- The derived type names fit the schema when the actor names do. -/
theorem typeIdentifier_scope {s : String} (h : NameOk s) :
    typeIdentifier (String.ofList (typeScope s.toList) ++ "A") = true := by
  unfold typeIdentifier
  obtain rfl | h := h
  · decide
  unfold identifier at h
  split at h
  · cases h
  · rename_i c cs heq
    simp only [Bool.and_eq_true] at h
    have hdot : c ≠ '.' := by
      intro heq
      rw [heq] at h
      exact absurd h.1 (by decide)
    rw [heq, String.toList_append, String.toList_ofList]
    unfold typeScope
    by_cases hmem : '.' ∈ c :: cs
    · rw [if_pos hmem, if_neg hdot]
      simp only [List.cons_append, List.nil_append, Bool.and_eq_true]
      exact ⟨isLetter_toUpper h.1, typeIdentifierRest_scope cs h.2⟩
    · rw [if_neg hmem]
      decide

/-! ## Saving the actors -/

theorem ActorsSaved.step {pool : List String → String → String} (hpool : PoolOk pool) {g : Graph}
    {done : List Nat} {ctx : SNGDumpCTX} (h : ActorsSaved g done ctx) (v : Nat) (hname : NameOk (nameOf g v)) :
    ActorsSaved g (done ++ [v]) (saveActor pool g ctx v (nameOf g v)) := by
  unfold saveActor
  simp only
  split
  · rename_i t ht
    refine ⟨?_, ?_, ?_, h.typeNames, h.distinct, h.channels⟩
    · refine List.rel_append h.instances (.cons ⟨t, rfl, ht⟩ .nil)
    · intro key t' hkey
      obtain ⟨w, hw, hrest⟩ := h.cache key t' hkey
      exact ⟨w, List.mem_append_left _ hw, hrest⟩
    · intro e he
      obtain ⟨t', w, hw, hrest⟩ := h.types e he
      exact ⟨t', w, List.mem_append_left _ hw, hrest⟩
  · rename_i hnone
    let t := pool ctx.typeNames (String.ofList (typeScope (nameOf g v).toList) ++ "A")
    have hcache : ∀ key t', ctx.actorTypeCache.lookup key = some t' →
        ((g.key v, t) :: ctx.actorTypeCache).lookup key = some t' := by
      intro key t' hkey
      have hne : (key == g.key v) = false := by
        rw [beq_eq_false_iff_ne]
        intro heq
        rw [heq] at hkey
        exact absurd hkey (by rw [show ctx.actorTypeCache.lookup (g.key v) = none from hnone]; simp)
      rw [List.lookup_cons, hne]
      exact hkey
    refine ⟨?_, ?_, ?_, ?_, ?_, h.channels⟩
    · refine List.rel_append (h.instances.imp ?_) (.cons ⟨t, rfl, List.lookup_cons_self⟩ .nil)
      intro w e ⟨t', he, hw⟩
      exact ⟨t', he, hcache _ _ hw⟩
    · intro key t' hkey
      rw [portElements]
      by_cases heq : key = g.key v
      · have hself : ((g.key v, t) :: ctx.actorTypeCache).lookup key = some t := by
          rw [heq]
          exact List.lookup_cons_self
        cases hself.symm.trans hkey
        exact ⟨v, by simp, heq, List.mem_append_right _ (List.mem_singleton_self _)⟩
      · have hold : ctx.actorTypeCache.lookup key = some t' := by
          have hne : (key == g.key v) = false := by
            rw [beq_eq_false_iff_ne]
            exact heq
          have hkey : ((g.key v, t) :: ctx.actorTypeCache).lookup key = some t' := hkey
          rwa [List.lookup_cons, hne] at hkey
        obtain ⟨w, hw, hkw, hmem⟩ := h.cache key t' hold
        exact ⟨w, List.mem_append_left _ hw, hkw, List.mem_append_left _ hmem⟩
    · intro e he
      rw [portElements] at he
      simp only [List.mem_append, List.mem_singleton] at he
      obtain he | rfl := he
      · obtain ⟨t', w, hw, hrest⟩ := h.types e he
        exact ⟨t', w, List.mem_append_left _ hw, hrest⟩
      · exact ⟨t, v, by simp, rfl, hpool.form _ _ (typeIdentifier_scope hname)⟩
    · simp [h.typeNames]
    · rw [List.nodup_append]
      refine ⟨h.distinct, List.nodup_singleton _, ?_⟩
      intro a ha b hb heq
      rw [List.mem_singleton] at hb
      exact hpool.fresh _ _ (hb ▸ heq ▸ ha)

/-! ## Saving a loaded graph -/

def endRefs (g : Graph) (ends : List (Nat × String)) : List ActorPortRef :=
  ends.map fun s => ⟨some (nameOf g s.1), some s.2⟩

def Chan.element (g : Graph) (ch : Chan) : ChannelElement :=
  match ch.info.type with
  | .fifo tokenSize capacity delay =>
    ⟨.fifo, some ch.info.name, some (toString capacity), some (toString delay), [tokenSizeAttr tokenSize],
      endRefs g ch.sources, endRefs g ch.targets⟩
  | .register tokenSize | .actor tokenSize =>
    ⟨.register, some ch.info.name, none, none, [tokenSizeAttr tokenSize], endRefs g ch.sources,
      endRefs g ch.targets⟩

/-- A register is written or read but not both. -/
def Chan.OneSided (ch : Chan) : Prop := ch.sources = [] ∨ ch.targets = []

namespace Net

variable {n : Net} {i : Nat} {ch : Chan} {pool : List String → String → String}

theorem nameOf_actor {v : Nat} (hv : v < n.actors.length) : nameOf n.graph v = n.actors[v] := by
  unfold nameOf
  rw [vertices_actor hv]
  rfl

theorem saveVertex_actor {v : Nat} (hv : v < n.actors.length) (ctx : SNGDumpCTX) :
    saveVertex pool n.graph ctx v = some (saveActor pool n.graph ctx v (nameOf n.graph v)) := by
  unfold saveVertex
  rw [vertices_actor hv, nameOf_actor hv]
  rfl

theorem sourceRefs (c : Nat) : (ch.sourceEdges c).map (sourceRef n.graph) = endRefs n.graph ch.sources := by
  simp [Chan.sourceEdges, sourceRef, endRefs, Function.comp_def]

theorem targetRefs (c : Nat) : (ch.targetEdges c).map (targetRef n.graph) = endRefs n.graph ch.targets := by
  simp [Chan.targetEdges, targetRef, endRefs, Function.comp_def]

theorem saveVertex_fifo (h : n.Ok) (hi : n.chans[i]? = some ch) (hfifo : ch.IsFifo) (ctx : SNGDumpCTX) :
    saveVertex pool n.graph ctx (n.actors.length + i) =
      some { ctx with fifoConnections := ctx.fifoConnections ++ [ch.element n.graph] } := by
  obtain ⟨capacity, delay, htype, _⟩ := hfifo.type
  obtain ⟨t, ht⟩ := List.length_eq_one_iff.mp hfifo.target
  have htargets : (ch.targetEdges (n.actors.length + i)).map (targetRef n.graph) = endRefs n.graph ch.targets :=
    targetRefs _
  unfold saveVertex
  rw [vertices_chan hi, outEdges_chan h hi, inEdges_chan h hi, sourceRefs]
  obtain ⟨⟨name, type⟩, tokenSize, sources, targets⟩ := ch
  simp only at htype ht
  subst htype ht
  rfl

theorem saveVertex_register (h : n.Ok) (hi : n.chans[i]? = some ch) (hreg : ch.IsRegister) (ctx : SNGDumpCTX) :
    (ch.OneSided → saveVertex pool n.graph ctx (n.actors.length + i) =
      some { ctx with fifoConnections := ctx.fifoConnections ++ [ch.element n.graph] }) ∧
    (¬ ch.OneSided → saveVertex pool n.graph ctx (n.actors.length + i) = none) := by
  have hside : (n.graph.inEdges (n.actors.length + i) = [] ∨ n.graph.outEdges (n.actors.length + i) = []) ↔
      ch.OneSided := by
    rw [inEdges_chan h hi, outEdges_chan h hi]
    simp [Chan.sourceEdges, Chan.targetEdges, Chan.OneSided]
  have hsources : (ch.sourceEdges (n.actors.length + i)).map (sourceRef n.graph) = endRefs n.graph ch.sources :=
    sourceRefs _
  have htargets : (ch.targetEdges (n.actors.length + i)).map (targetRef n.graph) = endRefs n.graph ch.targets :=
    targetRefs _
  rw [← inEdges_chan h hi] at hsources
  rw [← outEdges_chan h hi] at htargets
  unfold saveVertex
  rw [vertices_chan hi]
  obtain ⟨⟨name, type⟩, tokenSize, sources, targets⟩ := ch
  unfold Chan.IsRegister at hreg
  simp only at hreg
  subst hreg
  refine ⟨?_, ?_⟩
  · intro hone
    simp only [if_pos (hside.mpr hone), hsources, htargets]
    rfl
  · intro hone
    simp only [if_neg fun h => hone (hside.mp h)]

theorem save_actors (h : n.Ok) (hpool : PoolOk pool) {j : Nat} (hj : j ≤ n.actors.length) :
    ∃ ctx, (List.range j).foldlM (saveVertex pool n.graph) ⟨[], [], [], [], []⟩ = some ctx ∧
      ActorsSaved n.graph (List.range j) ctx := by
  induction j with
  | zero => exact ⟨_, rfl, .nil, by simp, by simp, rfl, List.nodup_nil, rfl⟩
  | succ j ih =>
    obtain ⟨ctx, hrun, hsaved⟩ := ih (by omega)
    have hname : NameOk (nameOf n.graph j) := by
      rw [nameOf_actor (by omega)]
      exact h.names _ (List.getElem_mem _)
    refine ⟨saveActor pool n.graph ctx j (nameOf n.graph j), ?_, ?_⟩
    · rw [List.range_succ, List.foldlM_append, hrun]
      simp [saveVertex_actor (show j < n.actors.length by omega)]
    · rw [List.range_succ]
      exact hsaved.step hpool j hname

theorem save_chans (h : n.Ok) (hone : ∀ ch ∈ n.registers, ch.OneSided) (ctx : SNGDumpCTX) {j : Nat}
    (hj : j ≤ n.chans.length) :
    ((List.range j).map (n.actors.length + ·)).foldlM (saveVertex pool n.graph) ctx =
      some { ctx with
        fifoConnections := ctx.fifoConnections ++ (n.chans.take j).map (Chan.element n.graph) } := by
  induction j with
  | zero => simp
  | succ j ih =>
    have hget : n.chans[j]? = some n.chans[j] := List.getElem?_eq_getElem (by omega)
    rw [List.range_succ, List.map_append, List.foldlM_append, ih (by omega)]
    have hstep : ∀ ctx, saveVertex pool n.graph ctx (n.actors.length + j) =
        some { ctx with fifoConnections := ctx.fifoConnections ++ [n.chans[j].element n.graph] } := by
      intro ctx
      have hmem := List.mem_of_getElem? hget
      unfold chans at hmem
      rw [List.mem_append] at hmem
      obtain hmem | hmem := hmem
      · exact saveVertex_fifo h hget (h.fifos _ hmem) ctx
      · exact (saveVertex_register h hget (h.registers _ hmem) ctx).1 (hone _ hmem)
    have htake : (n.chans.take (j + 1)).map (Chan.element n.graph) =
        (n.chans.take j).map (Chan.element n.graph) ++ [n.chans[j].element n.graph] := by
      rw [List.take_add_one, hget, List.map_append]
      rfl
    rw [htake]
    simp only [Option.bind_eq_bind, Option.bind_some, List.map_cons, List.map_nil, List.foldlM_cons,
      List.foldlM_nil, hstep, List.append_assoc]
    rfl

theorem range_vertices : List.range n.graph.vertices.length =
    List.range n.actors.length ++ (List.range n.chans.length).map (n.actors.length + ·) := by
  rw [length_vertices, List.range_add]

end Net

end SysteMoC.SNG
