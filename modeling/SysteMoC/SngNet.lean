import SysteMoC.SngDocument
import SysteMoC.Assoc

/-!
# Graphs that are loaded

`loadSNG` puts the actors first, then the FIFOs, then the registers, and the edges channel
by channel. `Net` lists these parts, and every loaded graph is the graph of one.
-/

namespace SysteMoC.SNG

structure Chan where
  info : VertexInfo
  tokenSize : Nat
  sources : List (Nat × String)
  targets : List (Nat × String)

def Chan.sourceEdges (ch : Chan) (c : Nat) : List Edge := ch.sources.map fun s => ⟨⟨s.2, ch.tokenSize, 1⟩, s.1, c⟩

def Chan.targetEdges (ch : Chan) (c : Nat) : List Edge := ch.targets.map fun t => ⟨⟨t.2, ch.tokenSize, 1⟩, c, t.1⟩

def edgesFrom : Nat → List Chan → List Edge
  | _, [] => []
  | c, ch :: chans => ch.sourceEdges c ++ ch.targetEdges c ++ edgesFrom (c + 1) chans

theorem edgesFrom_append (l m : List Chan) (c : Nat) :
    edgesFrom c (l ++ m) = edgesFrom c l ++ edgesFrom (c + l.length) m := by
  induction l generalizing c with
  | nil => simp [edgesFrom]
  | cons ch l ih =>
    simp only [List.cons_append, edgesFrom, List.append_assoc, List.length_cons, ih]
    rw [show c + 1 + l.length = c + (l.length + 1) by omega]

structure Net where
  actors : List String
  fifos : List Chan
  registers : List Chan

namespace Net

def chans (n : Net) : List Chan := n.fifos ++ n.registers

def actorInfo (name : String) : VertexInfo := ⟨name, .actor unknown⟩

def graph (n : Net) : Graph :=
  ⟨n.actors.map actorInfo ++ n.chans.map (·.info), edgesFrom n.actors.length n.chans⟩

end Net

def NameOk (s : String) : Prop := s = "" ∨ identifier s = true

structure Chan.Ok (k : Nat) (ch : Chan) : Prop where
  ends : ∀ s ∈ ch.sources ++ ch.targets, s.1 < k ∧ NameOk s.2
  size : ofInt (toInt ch.tokenSize) = ch.tokenSize ∧ ch.tokenSize < 2 ^ 64

structure Chan.IsFifo (ch : Chan) : Prop where
  source : ch.sources.length = 1
  target : ch.targets.length = 1
  type : ∃ capacity delay, ch.info.type = .fifo ch.tokenSize capacity delay ∧ 1 ≤ capacity ∧
    capacity < 2 ^ 64 ∧ delay < 2 ^ 64

def Chan.IsRegister (ch : Chan) : Prop := ch.info.type = .register ch.tokenSize

structure Net.Ok (n : Net) : Prop where
  nonempty : n.actors ≠ []
  nodup : n.actors.Nodup
  names : ∀ a ∈ n.actors, NameOk a
  chans : ∀ ch ∈ n.chans, ch.Ok n.actors.length
  fifos : ∀ ch ∈ n.fifos, ch.IsFifo
  registers : ∀ ch ∈ n.registers, ch.IsRegister

/-! ## Loading step by step -/

theorem insertNew_eq {α : Type} {m m' : List (String × α)} {k : String} {a : α} (h : insertNew m k a = some m') :
    k ∉ m.map Prod.fst ∧ m' = m ++ [(k, a)] := by
  unfold insertNew at h
  split at h
  · cases h
  · cases h
    exact ⟨‹_›, rfl⟩

theorem nameOk_getAttribute {a : Option String} (h : a.all identifier = true) : NameOk (getAttribute a) := by
  cases a with
  | none => exact .inl rfl
  | some s => exact .inr h

/-- After the actor instances `names`. -/
structure ActorsLoaded (names : List String) (s : Loading) : Prop where
  graph : s.g = ⟨names.map Net.actorInfo, []⟩
  instances : s.actorInstances.map Prod.fst = names
  nodup : names.Nodup
  vertices : ∀ i ∈ s.actorInstances, i.2.vd < names.length

theorem ActorsLoaded.step {types : List (String × List (String × Direction))} {names : List String}
    {s s' : Loading} (h : ActorsLoaded names s) {i : ActorInstanceElement}
    (hstep : loadActorInstance types s i = some s') : ActorsLoaded (names ++ [getAttribute i.name]) s' := by
  obtain ⟨ports, _, hstep⟩ := Option.bind_eq_some_iff.mp hstep
  obtain ⟨instances, hnew, hstep⟩ := Option.bind_eq_some_iff.mp hstep
  cases hstep
  obtain ⟨hfresh, rfl⟩ := insertNew_eq hnew
  rw [h.instances] at hfresh
  refine ⟨?_, ?_, ?_, ?_⟩
  · simp [h.graph, Graph.addVertex, Net.actorInfo]
  · simp [h.instances]
  · rw [List.nodup_append]
    refine ⟨h.nodup, List.nodup_singleton _, ?_⟩
    intro a ha b hb heq
    rw [List.mem_singleton] at hb
    exact hfresh (hb ▸ heq ▸ ha)
  · intro j hj
    rw [List.length_append, List.length_singleton]
    simp only [List.mem_append, List.mem_singleton] at hj
    obtain hj | rfl := hj
    · exact Nat.lt_succ_of_lt (h.vertices j hj)
    · simp [h.graph]

theorem actorsLoaded {types : List (String × List (String × Direction))} {l : List ActorInstanceElement}
    {names : List String} {s s' : Loading} (h : ActorsLoaded names s)
    (hl : l.foldlM (loadActorInstance types) s = some s') :
    ActorsLoaded (names ++ l.map fun i => getAttribute i.name) s' := by
  induction l generalizing names s with
  | nil =>
    cases hl
    simpa using h
  | cons i l ih =>
    rw [List.foldlM_cons] at hl
    obtain ⟨s₁, hstep, hl⟩ := Option.bind_eq_some_iff.mp hl
    simpa using ih (h.step hstep) hl

theorem connectPort_lt {instances : List (String × ActorInstance)} {d : Direction} {r : ActorPortRef} {v k : Nat}
    (h : connectPort instances d r = some v) (hk : ∀ i ∈ instances, i.2.vd < k) : v < k := by
  obtain ⟨i, hi, h⟩ := Option.bind_eq_some_iff.mp h
  obtain ⟨d', _, h⟩ := Option.bind_eq_some_iff.mp h
  split at h
  · cases h
    exact hk _ (Assoc.mem_of_lookup hi)
  · cases h

/-! ## Channels -/

theorem loadEnds_eq {instances : List (String × ActorInstance)} {k : Nat} {d : Direction} {ends : Nat → Nat × Nat}
    {tokenSize : Int} {l : List ActorPortRef} {g g' : Graph} (hk : ∀ i ∈ instances, i.2.vd < k)
    (hl : l.all NetworkGraph.validRef = true) (h : l.foldlM (loadEnd instances d ends tokenSize) g = some g') :
    ∃ es : List (Nat × String), es.length = l.length ∧ (∀ e ∈ es, e.1 < k ∧ NameOk e.2) ∧
      g' = ⟨g.vertices, g.edges ++ es.map fun e => ⟨⟨e.2, ofInt tokenSize, 1⟩, (ends e.1).1, (ends e.1).2⟩⟩ := by
  induction l generalizing g with
  | nil =>
    cases h
    exact ⟨[], by simp⟩
  | cons r l ih =>
    rw [List.foldlM_cons] at h
    obtain ⟨g₁, hstep, h⟩ := Option.bind_eq_some_iff.mp h
    obtain ⟨v, hv, hstep⟩ := Option.bind_eq_some_iff.mp hstep
    cases hstep
    simp only [List.all_cons, Bool.and_eq_true] at hl
    obtain ⟨es, hlen, hok, rfl⟩ := ih hl.2 h
    have hname : NameOk (getAttribute r.port) := by
      have := hl.1
      simp only [NetworkGraph.validRef, Bool.and_eq_true] at this
      exact nameOk_getAttribute this.2
    refine ⟨(v, getAttribute r.port) :: es, by simp [hlen], ?_, by simp⟩
    intro e he
    simp only [List.mem_cons] at he
    obtain rfl | he := he
    · exact ⟨connectPort_lt hv hk, hname⟩
    · exact hok e he

theorem ofInt_lt (i : Int) : ofInt i < 2 ^ 64 := by
  unfold ofInt
  omega

theorem ofInt_toInt (n : Nat) : ofInt (toInt (ofInt (toInt n))) = ofInt (toInt n) := by
  unfold ofInt toInt
  simp only [Int.bmod_def]
  omega

/-! ## Numbers -/

theorem digit_cases {c : Char} (h : c.isDigit = true) : c ≠ '+' ∧ c ≠ '-' ∧ c.isWhitespace = false := by
  refine ⟨?_, ?_, ?_⟩
  · intro heq
    subst heq
    exact absurd h (by decide)
  · intro heq
    subst heq
    exact absurd h (by decide)
  · unfold Char.isWhitespace
    simp only [Bool.or_eq_false_iff, decide_eq_false_iff_not]
    refine ⟨⟨⟨?_, ?_⟩, ?_⟩, ?_⟩
    all_goals
      intro heq
      subst heq
      exact absurd h (by decide)

theorem unsignedPrefix_digits {cs : List Char} (h : digits cs = true) :
    unsignedPrefix cs = if 2 ^ 64 ≤ value cs then none else some (value cs) := by
  unfold digits at h
  simp only [Bool.and_eq_true, decide_eq_true_eq, List.all_eq_true] at h
  obtain ⟨hne, hall⟩ := h
  have htake : cs.takeWhile Char.isDigit = cs := by
    rw [← List.append_nil cs, List.takeWhile_append_of_pos hall]
    simp
  unfold unsignedPrefix
  simp only [htake, hne, false_or]

theorem unsignedPrefix_lt {cs : List Char} {n : Nat} (h : unsignedPrefix cs = some n) : n < 2 ^ 64 := by
  unfold unsignedPrefix at h
  simp only at h
  split at h
  · cases h
  · rename_i hcond
    cases h
    rw [not_or] at hcond
    omega

theorem stoul_lt {s : String} {n : Nat} (h : stoul s = some n) : n < 2 ^ 64 := by
  unfold stoul at h
  split at h
  · exact unsignedPrefix_lt h
  · obtain ⟨m, _, rfl⟩ := Option.map_eq_some_iff.mp h
    exact Nat.mod_lt _ (by decide)
  · exact unsignedPrefix_lt h

theorem stoul_digits {s : String} (h : digits s.toList = true) : stoul s = unsignedPrefix s.toList := by
  unfold stoul
  unfold digits at h
  simp only [Bool.and_eq_true, decide_eq_true_eq, List.all_eq_true] at h
  cases hs : s.toList with
  | nil => exact absurd hs h.1
  | cons c cs =>
    obtain ⟨hplus, hminus, hspace⟩ := digit_cases (h.2 c (by simp [hs]))
    rw [List.dropWhile_cons_of_neg (by simp [hspace])]
    split
    · rename_i heq
      cases heq
      exact absurd rfl hplus
    · rename_i heq
      cases heq
      exact absurd rfl hminus
    · rfl

theorem digits_toString (n : Nat) : digits (toString n).toList = true ∧ value (toString n).toList = n := by
  have hlist : (toString n).toList = Nat.toDigits 10 n := by simp [Nat.toString_eq_repr]
  rw [hlist]
  unfold digits value
  refine ⟨?_, Nat.ofDigitChars_toDigits (by decide) (by decide)⟩
  simp only [Bool.and_eq_true, decide_eq_true_eq, List.all_eq_true]
  exact ⟨Nat.toDigits_ne_nil, fun c hc => Nat.isDigit_of_mem_toDigits (by decide) (by decide) hc⟩

theorem stoul_toString {n : Nat} (h : n < 2 ^ 64) : stoul (toString n) = some n := by
  obtain ⟨hdigits, hvalue⟩ := digits_toString n
  rw [stoul_digits hdigits, unsignedPrefix_digits hdigits, hvalue, if_neg (by omega)]

theorem no_sign {cs : List Char} (h : digits cs = true) (c : Char) (cs' : List Char) (heq : cs = c :: cs') :
    c ≠ '+' ∧ c ≠ '-' := by
  subst heq
  unfold digits at h
  simp only [Bool.and_eq_true, decide_eq_true_eq, List.all_eq_true] at h
  obtain ⟨hplus, hminus, _⟩ := digit_cases (h.2 c List.mem_cons_self)
  exact ⟨hplus, hminus⟩

theorem positiveInteger_toString {n : Nat} (h : 1 ≤ n) : positiveInteger (toString n) = true := by
  obtain ⟨hdigits, hvalue⟩ := digits_toString n
  unfold positiveInteger
  split
  · rename_i cs heq
    exact absurd rfl (no_sign hdigits _ cs heq).1
  · simp only [Bool.and_eq_true, decide_eq_true_eq]
    refine ⟨hdigits, ?_⟩
    rw [hvalue]
    exact h

theorem nonNegativeInteger_toString (n : Nat) : nonNegativeInteger (toString n) = true := by
  obtain ⟨hdigits, _⟩ := digits_toString n
  unfold nonNegativeInteger
  split
  · rename_i cs heq
    exact absurd rfl (no_sign hdigits _ cs heq).1
  · rename_i cs heq
    exact absurd rfl (no_sign hdigits _ cs heq).2
  · exact hdigits

theorem stoul_positive {s : String} {n : Nat} (hs : positiveInteger s = true) (h : stoul s = some n) : 1 ≤ n := by
  have hinit : ∀ cs, digits cs = true → 0 < value cs → unsignedPrefix cs = some n → 1 ≤ n := by
    intro cs hdigits hpos hn
    rw [unsignedPrefix_digits hdigits] at hn
    split at hn
    · cases hn
    · cases hn
      exact hpos
  unfold positiveInteger at hs
  split at hs
  · rename_i cs heq
    simp only [Bool.and_eq_true, decide_eq_true_eq] at hs
    refine hinit cs hs.1 hs.2 ?_
    unfold stoul at h
    rw [heq, List.dropWhile_cons_of_neg (by decide)] at h
    exact h
  · simp only [Bool.and_eq_true, decide_eq_true_eq] at hs
    rw [stoul_digits hs.1] at h
    exact hinit _ hs.1 hs.2 h

/-! ## The loaded graph -/

theorem toInt_unknown : toInt unknown = -1 := by decide +kernel

theorem loadTokenSizes {l : List OpenDSEAttr} {t t' : Int} (ht : ∃ n, t = toInt n)
    (h : l.foldlM loadTokenSize t = some t') : ∃ n, t' = toInt n := by
  induction l generalizing t with
  | nil =>
    cases h
    exact ht
  | cons a l ih =>
    rw [List.foldlM_cons] at h
    obtain ⟨t₁, hstep, h⟩ := Option.bind_eq_some_iff.mp h
    refine ih ?_ h
    unfold loadTokenSize at hstep
    split at hstep
    · split at hstep
      · obtain ⟨n, _, rfl⟩ := Option.map_eq_some_iff.mp hstep
        exact ⟨n, rfl⟩
      · cases hstep
    · cases hstep
      exact ht

theorem loadChannel_eq {instances : List (String × ActorInstance)} {k : Nat} {c : ChannelElement} {g g' : Graph}
    (hk : ∀ i ∈ instances, i.2.vd < k) (hc : NetworkGraph.validChannel c = true)
    (h : loadChannel instances g c = some g') :
    ∃ ch : Chan, ch.Ok k ∧ (c.tag = .fifo → ch.IsFifo) ∧ (c.tag = .register → ch.IsRegister) ∧
      g' = ⟨g.vertices ++ [ch.info], g.edges ++ (ch.sourceEdges g.vertices.length ++
        ch.targetEdges g.vertices.length)⟩ := by
  obtain ⟨tokenSize, htok, h⟩ := Option.bind_eq_some_iff.mp h
  obtain ⟨type, htype, h⟩ := Option.bind_eq_some_iff.mp h
  obtain ⟨g₁, hsrc, htgt⟩ := Option.bind_eq_some_iff.mp h
  obtain ⟨n, hn⟩ := loadTokenSizes ⟨unknown, toInt_unknown.symm⟩ htok
  have hsize : ofInt (toInt (ofInt tokenSize)) = ofInt tokenSize := by
    rw [hn]
    exact ofInt_toInt n
  unfold NetworkGraph.validChannel at hc
  simp only [Bool.and_eq_true] at hc
  obtain ⟨⟨hsources, htargets⟩, htag⟩ := hc
  obtain ⟨sources, hsrclen, hsrcok, rfl⟩ := loadEnds_eq hk hsources hsrc
  obtain ⟨targets, htgtlen, htgtok, rfl⟩ := loadEnds_eq hk htargets htgt
  refine ⟨⟨⟨getAttribute c.name, type⟩, ofInt tokenSize, sources, targets⟩, ⟨?_, hsize, ofInt_lt _⟩,
    ?_, ?_, ?_⟩
  · intro s hs
    rw [List.mem_append] at hs
    exact hs.elim (hsrcok s) (htgtok s)
  · intro hfifo
    rw [hfifo] at htag
    simp only [Bool.and_eq_true, beq_iff_eq] at htag
    unfold loadVertexType at htype
    rw [hfifo] at htype
    obtain ⟨capacity, hcap, htype⟩ := Option.bind_eq_some_iff.mp htype
    obtain ⟨delay, hdelay, htype⟩ := Option.bind_eq_some_iff.mp htype
    cases htype
    have hpos : positiveInteger (c.size.getD "1") = true := by
      cases hsz : c.size with
      | none => decide
      | some s =>
        have := htag.1.2
        rwa [hsz] at this
    exact ⟨hsrclen.trans htag.1.1.1, htgtlen.trans htag.1.1.2, capacity, delay, rfl,
      stoul_positive hpos hcap, stoul_lt hcap, stoul_lt hdelay⟩
  · intro hreg
    unfold loadVertexType at htype
    rw [hreg] at htype
    cases htype
    rfl
  · simp [Chan.sourceEdges, Chan.targetEdges, List.append_assoc]

theorem loadChannels_eq {instances : List (String × ActorInstance)} {actors : List String} {p : Chan → Prop}
    {l : List ChannelElement} {m : List Chan} {g g' : Graph} (hk : ∀ i ∈ instances, i.2.vd < actors.length)
    (hl : ∀ c ∈ l, NetworkGraph.validChannel c = true)
    (hp : ∀ c ∈ l, ∀ ch : Chan, (c.tag = .fifo → ch.IsFifo) → (c.tag = .register → ch.IsRegister) → p ch)
    (hg : g = ⟨actors.map Net.actorInfo ++ m.map (·.info), edgesFrom actors.length m⟩)
    (h : l.foldlM (loadChannel instances) g = some g') :
    ∃ chans' : List Chan, (∀ ch ∈ chans', ch.Ok actors.length ∧ p ch) ∧
      g' = ⟨actors.map Net.actorInfo ++ (m ++ chans').map (·.info),
        edgesFrom actors.length (m ++ chans')⟩ := by
  induction l generalizing g m with
  | nil =>
    cases h
    exact ⟨[], by simp, by simpa using hg⟩
  | cons c l ih =>
    rw [List.foldlM_cons] at h
    obtain ⟨g₁, hstep, h⟩ := Option.bind_eq_some_iff.mp h
    obtain ⟨ch, hok, hfifo, hreg, rfl⟩ := loadChannel_eq hk (hl c List.mem_cons_self) hstep
    have hg₁ := ih (m := m ++ [ch]) (fun c' hc' => hl c' (List.mem_cons_of_mem _ hc'))
      (fun c' hc' => hp c' (List.mem_cons_of_mem _ hc')) ?_ h
    · obtain ⟨chans', hchans', rfl⟩ := hg₁
      refine ⟨ch :: chans', ?_, by simp⟩
      intro ch' hch'
      simp only [List.mem_cons] at hch'
      obtain rfl | hch' := hch'
      · exact ⟨hok, hp c List.mem_cons_self _ hfifo hreg⟩
      · exact hchans' ch' hch'
    · subst hg
      simp [edgesFrom_append, edgesFrom, List.append_assoc]

/-- Every loaded graph has the parts of a `Net`. -/
theorem loadSNG_net {doc : NetworkGraph} {g : Graph} (hv : doc.valid = true) (h : loadSNG doc = some g) :
    ∃ n : Net, n.Ok ∧ g = n.graph := by
  obtain ⟨types, _, h⟩ := Option.bind_eq_some_iff.mp h
  obtain ⟨s, hs, h⟩ := Option.bind_eq_some_iff.mp h
  obtain ⟨g₁, hfifos, hregs⟩ := Option.bind_eq_some_iff.mp h
  unfold NetworkGraph.valid at hv
  simp only [Bool.and_eq_true, List.all_eq_true, decide_eq_true_eq] at hv
  obtain ⟨⟨⟨⟨_, _⟩, hne⟩, hinst⟩, hchans⟩ := hv
  have hstart : ActorsLoaded [] ⟨.empty, []⟩ := ⟨rfl, rfl, List.nodup_nil, by simp⟩
  have hactors := actorsLoaded hstart hs
  rw [List.nil_append] at hactors
  have hk := hactors.vertices
  obtain ⟨fifos, hfifosok, rfl⟩ := loadChannels_eq (p := Chan.IsFifo) (m := []) hk
    (fun c hc => hchans c (List.mem_of_mem_filter hc))
    (fun c hc ch hfifo _ => hfifo (by simpa using (List.mem_filter.mp hc).2))
    (by simpa [edgesFrom] using hactors.graph) hfifos
  obtain ⟨registers, hregsok, rfl⟩ := loadChannels_eq (p := Chan.IsRegister) hk
    (fun c hc => hchans c (List.mem_of_mem_filter hc))
    (fun c hc ch _ hreg => hreg (by simpa using (List.mem_filter.mp hc).2)) rfl hregs
  refine ⟨⟨_, fifos, registers⟩, ⟨?_, hactors.nodup, ?_, ?_, fun ch hch => (hfifosok ch hch).2,
    fun ch hch => (hregsok ch hch).2⟩, rfl⟩
  · simpa using hne
  · intro a ha
    obtain ⟨i, hi, rfl⟩ := List.mem_map.mp ha
    have := hinst i hi
    simp only [NetworkGraph.validActorInstance, Bool.and_eq_true] at this
    exact nameOk_getAttribute this.1
  · intro ch hch
    unfold Net.chans at hch
    rw [List.mem_append] at hch
    exact hch.elim (fun h => (hfifosok ch h).1) fun h => (hregsok ch h).1

/-! ## Edges of a loaded graph -/

theorem mem_sourceEdges {ch : Chan} {c : Nat} {e : Edge} (h : e ∈ ch.sourceEdges c) :
    (e.source, e.name) ∈ ch.sources ∧ e.target = c ∧ e.tokenSize = ch.tokenSize ∧ e.tokens = 1 := by
  obtain ⟨s, hs, rfl⟩ := List.mem_map.mp h
  exact ⟨hs, rfl, rfl, rfl⟩

theorem mem_targetEdges {ch : Chan} {c : Nat} {e : Edge} (h : e ∈ ch.targetEdges c) :
    (e.target, e.name) ∈ ch.targets ∧ e.source = c ∧ e.tokenSize = ch.tokenSize ∧ e.tokens = 1 := by
  obtain ⟨t, ht, rfl⟩ := List.mem_map.mp h
  exact ⟨ht, rfl, rfl, rfl⟩

theorem mem_edgesFrom {chans : List Chan} {c : Nat} {e : Edge} :
    e ∈ edgesFrom c chans ↔
      ∃ (i : Nat) (ch : Chan), chans[i]? = some ch ∧ (e ∈ ch.sourceEdges (c + i) ∨ e ∈ ch.targetEdges (c + i)) := by
  induction chans generalizing c with
  | nil => simp [edgesFrom]
  | cons ch chans ih =>
    simp only [edgesFrom, List.mem_append, ih]
    constructor
    · intro h
      obtain h | ⟨i, ch', hi, h⟩ := h
      · exact ⟨0, ch, rfl, h⟩
      · exact ⟨i + 1, ch', hi, by rwa [show c + (i + 1) = c + 1 + i by omega]⟩
    · intro ⟨i, ch', hi, h⟩
      cases i with
      | zero =>
        cases hi
        exact .inl h
      | succ i => exact .inr ⟨i, ch', hi, by rwa [show c + 1 + i = c + (i + 1) by omega]⟩

namespace Net

variable {n : Net} {i : Nat} {ch : Chan}

theorem Ok.mem_edges (h : n.Ok) {e : Edge} (he : e ∈ n.graph.edges) :
    ∃ (i : Nat) (ch : Chan), n.chans[i]? = some ch ∧
      ((e ∈ ch.sourceEdges (n.actors.length + i) ∧ e.source < n.actors.length) ∨
        (e ∈ ch.targetEdges (n.actors.length + i) ∧ e.target < n.actors.length)) := by
  obtain ⟨i, ch, hi, he⟩ := mem_edgesFrom.mp he
  have hends := (h.chans ch (List.mem_of_getElem? hi)).ends
  refine ⟨i, ch, hi, he.imp (fun he => ⟨he, ?_⟩) fun he => ⟨he, ?_⟩⟩
  · exact (hends _ (List.mem_append_left _ (mem_sourceEdges he).1)).1
  · exact (hends _ (List.mem_append_right _ (mem_targetEdges he).1)).1

theorem filter_edges (hi : n.chans[i]? = some ch) (q : Edge → Bool)
    (hq : ∀ j ch', n.chans[j]? = some ch' → j ≠ i →
      ∀ e ∈ ch'.sourceEdges (n.actors.length + j) ++ ch'.targetEdges (n.actors.length + j), q e = false) :
    n.graph.edges.filter q =
      (ch.sourceEdges (n.actors.length + i) ++ ch.targetEdges (n.actors.length + i)).filter q := by
  obtain ⟨hlt, hget⟩ := List.getElem?_eq_some_iff.mp hi
  have hsplit : n.chans = n.chans.take i ++ ch :: n.chans.drop (i + 1) := by
    rw [← hget, List.getElem_cons_drop, List.take_append_drop]
  have hlen : (n.chans.take i).length = i := by
    rw [List.length_take]
    omega
  have hleft : (edgesFrom n.actors.length (n.chans.take i)).filter q = [] := by
    rw [List.filter_eq_nil_iff]
    intro e he
    obtain ⟨j, ch', hj, he⟩ := mem_edgesFrom.mp he
    rw [List.getElem?_take] at hj
    split at hj
    · rw [hq j ch' hj (by omega) e (List.mem_append.mpr he)]
      exact Bool.false_ne_true
    · cases hj
  have hright : (edgesFrom (n.actors.length + i + 1) (n.chans.drop (i + 1))).filter q = [] := by
    rw [List.filter_eq_nil_iff]
    intro e he
    obtain ⟨j, ch', hj, he⟩ := mem_edgesFrom.mp he
    rw [List.getElem?_drop] at hj
    rw [show n.actors.length + i + 1 + j = n.actors.length + (i + 1 + j) by omega] at he
    rw [hq _ ch' hj (by omega) e (List.mem_append.mpr he)]
    exact Bool.false_ne_true
  have hedges : n.graph.edges = edgesFrom n.actors.length (n.chans.take i) ++
      (ch.sourceEdges (n.actors.length + i) ++ ch.targetEdges (n.actors.length + i) ++
        edgesFrom (n.actors.length + i + 1) (n.chans.drop (i + 1))) := by
    show edgesFrom n.actors.length n.chans = _
    conv_lhs => rw [hsplit, edgesFrom_append, hlen]
    rfl
  rw [hedges, List.filter_append, hleft, List.nil_append, List.filter_append, hright, List.append_nil]

theorem inEdges_chan (h : n.Ok) (hi : n.chans[i]? = some ch) :
    n.graph.inEdges (n.actors.length + i) = ch.sourceEdges (n.actors.length + i) := by
  unfold Graph.inEdges
  rw [filter_edges hi]
  · rw [List.filter_append]
    have hin : (ch.sourceEdges (n.actors.length + i)).filter (·.target = n.actors.length + i) =
        ch.sourceEdges (n.actors.length + i) := by
      rw [List.filter_eq_self]
      intro e he
      simpa using (mem_sourceEdges he).2.1
    have hout : (ch.targetEdges (n.actors.length + i)).filter (·.target = n.actors.length + i) = [] := by
      rw [List.filter_eq_nil_iff]
      intro e he
      have := (h.chans ch (List.mem_of_getElem? hi)).ends _ (List.mem_append_right _ (mem_targetEdges he).1)
      simp
      omega
    rw [hin, hout, List.append_nil]
  · intro j ch' hj hji e he
    have hends := (h.chans ch' (List.mem_of_getElem? hj)).ends
    rw [decide_eq_false_iff_not]
    obtain he | he := List.mem_append.mp he
    · have := (mem_sourceEdges he).2.1
      omega
    · have := (hends _ (List.mem_append_right _ (mem_targetEdges he).1)).1
      simp only at this
      omega

theorem outEdges_chan (h : n.Ok) (hi : n.chans[i]? = some ch) :
    n.graph.outEdges (n.actors.length + i) = ch.targetEdges (n.actors.length + i) := by
  unfold Graph.outEdges
  rw [filter_edges hi]
  · rw [List.filter_append]
    have hin : (ch.sourceEdges (n.actors.length + i)).filter (·.source = n.actors.length + i) = [] := by
      rw [List.filter_eq_nil_iff]
      intro e he
      have := (h.chans ch (List.mem_of_getElem? hi)).ends _ (List.mem_append_left _ (mem_sourceEdges he).1)
      simp
      omega
    have hout : (ch.targetEdges (n.actors.length + i)).filter (·.source = n.actors.length + i) =
        ch.targetEdges (n.actors.length + i) := by
      rw [List.filter_eq_self]
      intro e he
      simpa using (mem_targetEdges he).2.1
    rw [hin, hout, List.nil_append]
  · intro j ch' hj hji e he
    have hends := (h.chans ch' (List.mem_of_getElem? hj)).ends
    rw [decide_eq_false_iff_not]
    obtain he | he := List.mem_append.mp he
    · have := (hends _ (List.mem_append_left _ (mem_sourceEdges he).1)).1
      simp only at this
      omega
    · have := (mem_targetEdges he).2.1
      omega

theorem length_vertices : n.graph.vertices.length = n.actors.length + n.chans.length := by
  simp [graph]

theorem vertices_actor {v : Nat} (hv : v < n.actors.length) :
    n.graph.vertices[v]? = some (actorInfo n.actors[v]) := by
  unfold graph
  rw [List.getElem?_append_left (by simpa using hv), List.getElem?_map, List.getElem?_eq_getElem hv]
  rfl

theorem vertices_chan (hi : n.chans[i]? = some ch) :
    n.graph.vertices[n.actors.length + i]? = some ch.info := by
  unfold graph
  rw [List.getElem?_append_right (by simp), List.length_map, Nat.add_sub_cancel_left, List.getElem?_map, hi]
  rfl

theorem isActor_iff (h : n.Ok) {v : Nat} : n.graph.IsActor v ↔ v < n.actors.length := by
  constructor
  · intro hact
    by_contra hv
    have hlt := hact.lt
    rw [length_vertices] at hlt
    obtain ⟨i, rfl⟩ : ∃ i, v = n.actors.length + i := ⟨v - n.actors.length, by omega⟩
    obtain ⟨ch, hi⟩ : ∃ ch, n.chans[i]? = some ch := ⟨_, List.getElem?_eq_getElem (by omega)⟩
    have hmem := List.mem_of_getElem? hi
    unfold Graph.IsActor Graph.repCount? at hact
    rw [vertices_chan hi] at hact
    obtain ⟨⟨name, type⟩, tokenSize, sources, targets⟩ := ch
    unfold chans at hmem
    rw [List.mem_append] at hmem
    obtain hmem | hmem := hmem
    · obtain ⟨_, _, htype, _⟩ := (h.fifos _ hmem).type
      simp only at htype
      subst htype
      simp at hact
    · have htype := h.registers _ hmem
      unfold Chan.IsRegister at htype
      simp only at htype
      subst htype
      simp at hact
  · intro hv
    unfold Graph.IsActor Graph.repCount?
    rw [vertices_actor hv]
    rfl

end Net

end SysteMoC.SNG
