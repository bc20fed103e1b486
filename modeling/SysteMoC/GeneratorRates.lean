import SysteMoC.GeneratorPhases
import SysteMoC.Pointwise

/-!
# Rates of the generated graphs

Every channel of a generated graph is balanced under the drawn repetition counts, and
the port names of an actor differ.
-/

namespace SysteMoC.SNG

open Drawing

/-! ## Rates from a common multiple -/

theorem div?_eq {a b k : Nat} (h : div? a b = some k) (hdvd : b ∣ a) (ha : 0 < a) :
    k * b = a ∧ 1 ≤ k := by
  unfold div? at h
  split at h
  · cases h
  · cases h
    exact ⟨Nat.div_mul_cancel hdvd, Nat.div_pos (Nat.le_of_dvd ha hdvd) (by omega)⟩

theorem div?_pos {a b k : Nat} (h : div? a b = some k) : 0 < b := by
  unfold div? at h
  split at h
  · cases h
  · omega

theorem dvd_foldl_lcm (l : List Nat) (a : Nat) :
    a ∣ l.foldl Nat.lcm a ∧ ∀ b ∈ l, b ∣ l.foldl Nat.lcm a := by
  induction l generalizing a with
  | nil => simp
  | cons b l ih =>
    obtain ⟨hacc, hl⟩ := ih (Nat.lcm a b)
    refine ⟨(Nat.dvd_lcm_left a b).trans hacc, ?_⟩
    intro c hc
    simp only [List.mem_cons] at hc
    obtain rfl | hc := hc
    · exact (Nat.dvd_lcm_right a c).trans hacc
    · exact hl c hc

theorem foldl_lcm_pos {l : List Nat} {a : Nat} (ha : 0 < a) (hl : ∀ b ∈ l, 0 < b) :
    0 < l.foldl Nat.lcm a := by
  induction l generalizing a with
  | nil => exact ha
  | cons b l ih =>
    exact ih (Nat.lcm_pos ha (hl b List.mem_cons_self)) fun c hc => hl c (List.mem_cons_of_mem b hc)

theorem le_foldl_max (l : List Nat) (a : Nat) :
    a ≤ l.foldl max a ∧ ∀ b ∈ l, b ≤ l.foldl max a := by
  induction l generalizing a with
  | nil => simp
  | cons b l ih =>
    obtain ⟨hacc, hl⟩ := ih (max a b)
    refine ⟨(Nat.le_max_left a b).trans hacc, ?_⟩
    intro c hc
    simp only [List.mem_cons] at hc
    obtain rfl | hc := hc
    · exact (Nat.le_max_right a c).trans hacc
    · exact hl c hc

/-! ## Numbered names -/

theorem toString_injective {m n : Nat} (h : toString m = toString n) : m = n := by
  have hchars : Nat.toDigits 10 m = Nat.toDigits 10 n := by
    simpa [Nat.toString_eq_repr] using congrArg String.toList h
  rw [← Nat.ofDigitChars_toDigits (n := m) (b := 10) (by decide) (by decide), hchars,
    Nat.ofDigitChars_toDigits (by decide) (by decide)]

/-- All names are `r` or `p` with a number up to their count. -/
structure Numbered (p r : String) (l : List String) : Prop where
  nodup : l.Nodup
  form : ∀ n ∈ l, n = r ∨ ∃ k, k ≤ l.length ∧ n = p ++ toString k

theorem Numbered.next {p r : String} {l : List String} (h : Numbered p r l)
    (hr : ∀ k : Nat, p ++ toString k ≠ r) : Numbered p r (l ++ [p ++ toString (l.length + 1)]) where
  nodup := by
    simp only [List.nodup_append, List.nodup_singleton, List.mem_singleton, true_and]
    refine ⟨h.nodup, ?_⟩
    intro n hn m hm heq
    subst hm
    obtain hnr | ⟨k, hk, hnk⟩ := h.form n hn
    · exact hr _ (heq.symm.trans hnr)
    · have := toString_injective (String.append_right_inj p |>.mp (hnk.symm.trans heq))
      omega
  form := by
    intro n hn
    simp only [List.mem_append, List.mem_singleton] at hn
    rw [List.length_append, List.length_singleton]
    obtain hn | rfl := hn
    · obtain hnr | ⟨k, hk, hnk⟩ := h.form n hn
      · exact .inl hnr
      · exact .inr ⟨k, by omega, hnk⟩
    · exact .inr ⟨_, Nat.le_refl _, rfl⟩

theorem Numbered.fixed {p r : String} {l : List String} (h : Numbered p r l) (hr : r ∉ l) :
    Numbered p r (l ++ [r]) where
  nodup := by
    simp only [List.nodup_append, List.nodup_singleton, List.mem_singleton, true_and]
    refine ⟨h.nodup, ?_⟩
    intro n hn m hm heq
    exact hr (hm ▸ heq ▸ hn)
  form := by
    intro n hn
    simp only [List.mem_append, List.mem_singleton] at hn
    rw [List.length_append, List.length_singleton]
    obtain hn | rfl := hn
    · obtain hnr | ⟨k, hk, hnk⟩ := h.form n hn
      · exact .inl hnr
      · exact .inr ⟨k, by omega, hnk⟩
    · exact .inl rfl

theorem numbered_nil {p r : String} : Numbered p r [] := ⟨List.nodup_nil, by simp⟩

theorem i_ne_in (k : Nat) : "i" ++ toString k ≠ "in" := by
  intro h
  have hchars : Nat.toDigits 10 k = ['n'] := by
    simpa [Nat.toString_eq_repr] using congrArg String.toList h
  have := Nat.isDigit_of_mem_toDigits (b := 10) (n := k) (c := 'n') (by decide) (by decide) (by simp [hchars])
  exact absurd this (by decide)

theorem o_ne_out (k : Nat) : "o" ++ toString k ≠ "out" := by
  intro h
  have hchars : Nat.toDigits 10 k = ['u', 't'] := by
    simpa [Nat.toString_eq_repr] using congrArg String.toList h
  have := Nat.isDigit_of_mem_toDigits (b := 10) (n := k) (c := 'u') (by decide) (by decide) (by simp [hchars])
  exact absurd this (by decide)

/-! ## Consistent graphs -/

namespace Graph

def maxCons (g : Graph) (c : Nat) : Nat := ((g.outEdges c).map (·.tokens)).foldl max 0

/-- A production takes as many tokens per iteration of the graph as each consumption, and
the buffer has room for a production on top of what may be left of a consumption. -/
structure Balanced (g : Graph) (c capacity : Nat) (edProd : Edge) (repSrc : Nat) : Prop where
  produced : g.inEdges c = [edProd]
  producer : g.repCount? edProd.source = some repSrc
  prod_pos : 1 ≤ edProd.tokens
  consumed : g.outEdges c ≠ []
  rates : ∀ edCons ∈ g.outEdges c, 1 ≤ edCons.tokens ∧
    ∃ repSnk, g.repCount? edCons.target = some repSnk ∧ edProd.tokens * repSrc = edCons.tokens * repSnk
  coprime : ∀ edCons, g.outEdges c = [edCons] → Nat.Coprime edProd.tokens edCons.tokens
  burst_pos : 1 ≤ edProd.tokens + g.maxCons c - 1
  burst : edProd.tokens + g.maxCons c - 1 ≤ capacity

structure Consistent (g : Graph) : Prop where
  channels : ∀ c name tokenSize capacity delay, g.vertices[c]? = some ⟨name, .fifo tokenSize capacity delay⟩ →
    ∃ edProd repSrc, g.Balanced c capacity edProd repSrc
  ports : ∀ v, g.IsActor v → ((g.outEdges v).map (·.name)).Nodup ∧ ((g.inEdges v).map (·.name)).Nodup

variable {g g' : Graph} {c capacity repSrc : Nat} {edProd : Edge}

theorem Balanced.congr (h : g.Balanced c capacity edProd repSrc) (hin : g'.inEdges c = g.inEdges c)
    (hout : g'.outEdges c = g.outEdges c)
    (hrep : ∀ v r, g.repCount? v = some r → g'.repCount? v = some r) :
    g'.Balanced c capacity edProd repSrc where
  produced := hin.trans h.produced
  producer := hrep _ _ h.producer
  prod_pos := h.prod_pos
  consumed := hout ▸ h.consumed
  rates := by
    intro edCons hmem
    obtain ⟨hpos, repSnk, hsnk, heq⟩ := h.rates edCons (hout ▸ hmem)
    exact ⟨hpos, repSnk, hrep _ _ hsnk, heq⟩
  coprime edCons heq := h.coprime edCons (hout ▸ heq)
  burst_pos := by
    unfold maxCons
    rw [hout]
    exact h.burst_pos
  burst := by
    unfold maxCons
    rw [hout]
    exact h.burst

end Graph

namespace Generator

/-- The port names of an actor; `ins` have an input and `outs` an output. -/
structure Ports (g : Graph) (ins outs : List Nat) (v : Nat) : Prop where
  outNames : Numbered "o" "out" ((g.outEdges v).map (·.name))
  inNames : Numbered "i" "in" ((g.inEdges v).map (·.name))
  isIn : "in" ∈ (g.inEdges v).map (·.name) → v ∈ ins
  isOut : "out" ∈ (g.outEdges v).map (·.name) → v ∈ outs

/-- The invariant: the graph is consistent so far. -/
structure Balancing (ins outs : List Nat) (g : Graph) : Prop where
  closed : g.Closed
  channels : ∀ c name tokenSize capacity delay, g.vertices[c]? = some ⟨name, .fifo tokenSize capacity delay⟩ →
    ∃ edProd repSrc, g.Balanced c capacity edProd repSrc
  ports : ∀ v, g.IsActor v → Ports g ins outs v

section
variable {g : Graph} {ins outs : List Nat} {u v c tokenSize tokens : Nat}

theorem Ports.addVertex {vi : VertexInfo} (h : Ports g ins outs v) : Ports (g.addVertex vi) ins outs v :=
  ⟨h.outNames, h.inNames, h.isIn, h.isOut⟩

theorem Ports.nextOut (h : Ports g ins outs v) (hv : v ≠ c) :
    Ports (g.addEdge u c ⟨"o" ++ toString ((g.outEdges u).length + 1), tokenSize, tokens⟩) ins outs v := by
  by_cases hu : u = v
  · subst hu
    refine ⟨?_, ?_, ?_, ?_⟩
    · simpa [Graph.outEdges_addEdge] using h.outNames.next o_ne_out
    · simpa [Graph.inEdges_addEdge, Ne.symm hv] using h.inNames
    · simpa [Graph.inEdges_addEdge, Ne.symm hv] using h.isIn
    · intro hmem
      simp only [Graph.outEdges_addEdge, if_true, List.map_append, List.map_cons, List.map_nil,
        List.mem_append, List.mem_singleton] at hmem
      obtain hmem | hmem := hmem
      · exact h.isOut hmem
      · exact absurd hmem.symm (o_ne_out _)
  · exact ⟨by simpa [Graph.outEdges_addEdge, hu] using h.outNames,
      by simpa [Graph.inEdges_addEdge, Ne.symm hv] using h.inNames,
      by simpa [Graph.inEdges_addEdge, Ne.symm hv] using h.isIn,
      by simpa [Graph.outEdges_addEdge, hu] using h.isOut⟩

theorem Ports.nextIn (h : Ports g ins outs v) (hv : v ≠ c) :
    Ports (g.addEdge c u ⟨"i" ++ toString ((g.inEdges u).length + 1), tokenSize, tokens⟩) ins outs v := by
  by_cases hu : u = v
  · subst hu
    refine ⟨?_, ?_, ?_, ?_⟩
    · simpa [Graph.outEdges_addEdge, Ne.symm hv] using h.outNames
    · simpa [Graph.inEdges_addEdge] using h.inNames.next i_ne_in
    · intro hmem
      simp only [Graph.inEdges_addEdge, if_true, List.map_append, List.map_cons, List.map_nil,
        List.mem_append, List.mem_singleton] at hmem
      obtain hmem | hmem := hmem
      · exact h.isIn hmem
      · exact absurd hmem.symm (i_ne_in _)
    · simpa [Graph.outEdges_addEdge, Ne.symm hv] using h.isOut
  · exact ⟨by simpa [Graph.outEdges_addEdge, Ne.symm hv] using h.outNames,
      by simpa [Graph.inEdges_addEdge, hu] using h.inNames,
      by simpa [Graph.inEdges_addEdge, hu] using h.isIn,
      by simpa [Graph.outEdges_addEdge, Ne.symm hv] using h.isOut⟩

theorem Ports.output (h : Ports g ins outs v) (hv : v ≠ c) (hu : u ∉ outs) :
    Ports (g.addEdge u c ⟨"out", tokenSize, tokens⟩) ins (u :: outs) v := by
  by_cases huv : u = v
  · subst huv
    refine ⟨?_, ?_, ?_, fun _ => List.mem_cons_self⟩
    · simpa [Graph.outEdges_addEdge] using h.outNames.fixed fun hmem => hu (h.isOut hmem)
    · simpa [Graph.inEdges_addEdge, Ne.symm hv] using h.inNames
    · simpa [Graph.inEdges_addEdge, Ne.symm hv] using h.isIn
  · refine ⟨?_, ?_, ?_, fun hmem => List.mem_cons_of_mem _ (h.isOut ?_)⟩
    · simpa [Graph.outEdges_addEdge, huv] using h.outNames
    · simpa [Graph.inEdges_addEdge, Ne.symm hv] using h.inNames
    · simpa [Graph.inEdges_addEdge, Ne.symm hv] using h.isIn
    · simpa [Graph.outEdges_addEdge, huv] using hmem

theorem Ports.input (h : Ports g ins outs v) (hv : v ≠ c) (hu : u ∉ ins) :
    Ports (g.addEdge c u ⟨"in", tokenSize, tokens⟩) (u :: ins) outs v := by
  by_cases huv : u = v
  · subst huv
    refine ⟨?_, ?_, fun _ => List.mem_cons_self, ?_⟩
    · simpa [Graph.outEdges_addEdge, Ne.symm hv] using h.outNames
    · simpa [Graph.inEdges_addEdge] using h.inNames.fixed fun hmem => hu (h.isIn hmem)
    · simpa [Graph.outEdges_addEdge, Ne.symm hv] using h.isOut
  · refine ⟨?_, ?_, fun hmem => List.mem_cons_of_mem _ (h.isIn ?_), ?_⟩
    · simpa [Graph.outEdges_addEdge, Ne.symm hv] using h.outNames
    · simpa [Graph.inEdges_addEdge, huv] using h.inNames
    · simpa [Graph.inEdges_addEdge, huv] using hmem
    · simpa [Graph.outEdges_addEdge, Ne.symm hv] using h.isOut

theorem Ports.addConsumers (hv : v ≠ c) (l : List (Nat × Nat)) (h : Ports g ins outs v) :
    Ports (l.foldl (addConsumer c) g) ins outs v := by
  induction l generalizing g with
  | nil => exact h
  | cons x l ih => exact ih (h.nextIn hv)

end

/-! ## One channel -/

theorem rates_eq {repSrc prod : Nat} {repSnks cons : List Nat}
    (hprod : div? (repSnks.foldl Nat.lcm repSrc) repSrc = some prod)
    (hcons : repSnks.mapM (div? (repSnks.foldl Nat.lcm repSrc)) = some cons) :
    1 ≤ prod ∧ List.Forall₂ (fun r k => 1 ≤ k ∧ prod * repSrc = k * r) repSnks cons := by
  have hcons := Pointwise.forall₂_of_mapM hcons
  have hpos : 0 < repSnks.foldl Nat.lcm repSrc := by
    refine foldl_lcm_pos (div?_pos hprod) ?_
    intro r hr
    obtain ⟨k, _, hk⟩ := (Pointwise.forall₂_mem hcons).1 r hr
    exact div?_pos hk
  obtain ⟨hsrc, hsnks⟩ := dvd_foldl_lcm repSnks repSrc
  obtain ⟨hprod, hone⟩ := div?_eq hprod hsrc hpos
  refine ⟨hone, ?_⟩
  rw [hprod]
  have hall := (List.forall₂_and_left _ _).mpr ⟨hsnks, hcons⟩
  refine hall.imp ?_
  intro r k hrk
  obtain ⟨hk, hone⟩ := div?_eq hrk.2 hrk.1 hpos
  exact ⟨hone, hk.symm⟩

theorem rates_coprime {a b j k : Nat} (hj : div? (Nat.lcm a b) a = some j) (hk : div? (Nat.lcm a b) b = some k) :
    Nat.Coprime j k := by
  have ha := div?_pos hj
  have hb := div?_pos hk
  have hlcm := Nat.lcm_pos ha hb
  obtain ⟨hj, _⟩ := div?_eq hj (Nat.dvd_lcm_left a b) hlcm
  obtain ⟨hk, _⟩ := div?_eq hk (Nat.dvd_lcm_right a b) hlcm
  have hgcd : 0 < Nat.gcd a b := Nat.gcd_pos_of_pos_left b ha
  have hjb : j * Nat.gcd a b = b := by
    refine Nat.eq_of_mul_eq_mul_left ha ?_
    calc a * (j * Nat.gcd a b) = Nat.gcd a b * (j * a) := by ac_rfl
      _ = a * b := by rw [hj, Nat.gcd_mul_lcm]
  have hka : k * Nat.gcd a b = a := by
    refine Nat.eq_of_mul_eq_mul_left hb ?_
    calc b * (k * Nat.gcd a b) = Nat.gcd a b * (k * b) := by ac_rfl
      _ = b * a := by rw [hk, Nat.gcd_mul_lcm, Nat.mul_comm]
  rw [Nat.eq_div_of_mul_eq_left hgcd.ne' hjb, Nat.eq_div_of_mul_eq_left hgcd.ne' hka]
  exact (Nat.coprime_div_gcd_div_gcd hgcd).symm

variable {st st' : Generator} {ins outs : List Nat}

theorem not_actor {g : Graph} {c : Nat} {name : String} {t s d : Nat}
    (h : g.vertices[c]? = some ⟨name, .fifo t s d⟩) : ¬ g.IsActor c := by
  unfold Graph.IsActor Graph.repCount?
  simp [h]

section
variable {g g' : Graph} {src c prod : Nat} {snks cons : List Nat}

theorem ChannelAdded.repCount? (h : ChannelAdded g g' src c snks prod cons) {v r : Nat}
    (hv : g.repCount? v = some r) : g'.repCount? v = some r := by
  obtain ⟨name, hname⟩ := h.vertices
  unfold Graph.repCount?
  rw [hname, List.getElem?_append_left (Graph.repCount?_lt hv)]
  exact hv

theorem ChannelAdded.inEdges_of_not_actor (h : ChannelAdded g g' src c snks prod cons) {d : Nat} (hd : d ≠ c)
    (hact : ¬ g.IsActor d) : g'.inEdges d = g.inEdges d := by
  obtain ⟨name, es, hes, _, htgt, _⟩ := h.edges
  apply Graph.inEdges_elsewhere hes
  intro e he heq
  obtain rfl | he := List.mem_cons.mp he
  · exact hd heq.symm
  · exact hact (heq ▸ h.sinks _ (htgt ▸ List.mem_map_of_mem he))

theorem ChannelAdded.outEdges_of_ne (h : ChannelAdded g g' src c snks prod cons) {d : Nat} (hd : d ≠ c)
    (hsrc : d ≠ src) : g'.outEdges d = g.outEdges d := by
  obtain ⟨name, es, hes, hessrc, _⟩ := h.edges
  apply Graph.outEdges_elsewhere hes
  intro e he heq
  obtain rfl | he := List.mem_cons.mp he
  · exact hsrc heq.symm
  · exact hd (heq.symm.trans (hessrc e he))

theorem ChannelAdded.balanced (h : ChannelAdded g g' src c snks prod cons) (hclosed : g.Closed)
    (hne : snks ≠ []) {repSrc : Nat} {repSnks : List Nat} (hsrc : g.repCount? src = some repSrc)
    (hsnks : snks.mapM g.repCount? = some repSnks)
    (hprod : div? (repSnks.foldl Nat.lcm repSrc) repSrc = some prod)
    (hcons : repSnks.mapM (div? (repSnks.foldl Nat.lcm repSrc)) = some cons) :
    ∃ edProd repSrc, g'.Balanced c (prod + cons.foldl max 0 - 1) edProd repSrc := by
  obtain ⟨hprodpos, hrates⟩ := rates_eq hprod hcons
  have hall := Pointwise.forall₂_of_mapM hsnks
  obtain ⟨name, es, hes, hessrc, htgt, htok⟩ := h.edges
  have hfresh := h.fresh
  have hnoact : ¬ g.IsActor c := fun hact => by
    have := hact.lt
    omega
  have hin : g'.inEdges c = [⟨⟨name, unknown, prod⟩, src, c⟩] := by
    have hnil : es.filter (·.target = c) = [] := by
      simp only [List.filter_eq_nil_iff, decide_eq_true_eq]
      intro e he heq
      exact hnoact (heq ▸ h.sinks _ (htgt ▸ List.mem_map_of_mem he))
    have hold := hclosed.inEdges_nil (Nat.le_of_eq hfresh.symm)
    unfold Graph.inEdges at hold ⊢
    rw [hes, List.filter_append, hold, List.filter_cons_of_pos (by simp), hnil, List.nil_append]
  have hout : g'.outEdges c = es := by
    have hsrcne : src ≠ c := fun heq => hnoact (heq ▸ h.source)
    have hall : es.filter (·.source = c) = es := by
      simp only [List.filter_eq_self, decide_eq_true_eq]
      exact hessrc
    have hold := hclosed.outEdges_nil (Nat.le_of_eq hfresh.symm)
    unfold Graph.outEdges at hold ⊢
    rw [hes, List.filter_append, hold, List.filter_cons_of_neg (by simpa using hsrcne), hall, List.nil_append]
  have hmax : g'.maxCons c = cons.foldl max 0 := by
    unfold Graph.maxCons
    rw [hout, htok]
  have hesne : es ≠ [] := by
    intro hnil
    rw [hnil] at htgt
    exact hne htgt.symm
  -- an edge, its sink's repetition count and its rate
  have hedge : ∀ e ∈ es, 1 ≤ e.tokens ∧ ∃ repSnk, g'.repCount? e.target = some repSnk ∧
      prod * repSrc = e.tokens * repSnk := by
    intro e he
    rw [← htgt, List.forall₂_map_left_iff] at hall
    rw [← htok, List.forall₂_map_right_iff] at hrates
    have hboth := List.Forall₂.mp (fun _ _ hsnk hrate => And.intro hsnk hrate) hall hrates.flip
    obtain ⟨r, _, hsnk, hpos, heq⟩ := (Pointwise.forall₂_mem hboth).1 e he
    exact ⟨hpos, r, h.repCount? hsnk, heq⟩
  refine ⟨_, repSrc, hin, h.repCount? hsrc, hprodpos, hout ▸ hesne, hout ▸ hedge, ?_, ?_, ?_⟩
  · intro edCons heq
    rw [hout] at heq
    rw [← htgt, heq] at hall
    -- with one sink the multiple is that of two numbers
    obtain ⟨r, rfl⟩ : ∃ r, repSnks = [r] := by
      cases hall with
      | cons _ hnil =>
        cases hnil
        exact ⟨_, rfl⟩
    have hconsr := Pointwise.forall₂_of_mapM hcons
    rw [← htok, heq] at hconsr
    cases hconsr with
    | cons hk _ => exact rates_coprime hprod hk
  · obtain ⟨e, he⟩ := List.exists_mem_of_ne_nil es hesne
    have hle := (le_foldl_max cons 0).2 e.tokens (htok ▸ List.mem_map_of_mem he)
    have := (hedge e he).1
    rw [hmax]
    simp only
    omega
  · rw [hmax]

end

theorem Balancing.channel (h : Balancing ins outs st.g) {pre : String} {src c : Nat} {snks : List Nat}
    (hne : snks ≠ []) (hadd : st.addChannel pre src snks = some (c, st')) : Balancing ins outs st'.g := by
  obtain ⟨repSrc, repSnks, prod, cons, hsrc, hsnks, hprod, hcons, hadded⟩ := channelAdded hadd
  refine ⟨hadded.closed h.closed, ?_, ?_⟩
  · intro d name tokenSize capacity delay hd
    obtain ⟨name', hname⟩ := hadded.vertices
    rw [hname] at hd
    have hlt : d < st.g.vertices.length + 1 := by
      simpa using (List.getElem?_eq_some_iff.mp hd).1
    by_cases hdc : d = c
    · -- the new channel
      rw [hdc, hadded.fresh, List.getElem?_append_right (Nat.le_refl _), Nat.sub_self] at hd
      cases hd
      rw [hdc]
      exact hadded.balanced h.closed hne hsrc hsnks hprod hcons
    · have hfresh := hadded.fresh
      rw [List.getElem?_append_left (by omega)] at hd
      obtain ⟨edProd, rep, hbal⟩ := h.channels d name tokenSize capacity delay hd
      have hact := not_actor hd
      exact ⟨edProd, rep, hbal.congr (hadded.inEdges_of_not_actor hdc hact)
        (hadded.outEdges_of_ne hdc fun heq => hact (heq ▸ hadded.source)) fun v r => hadded.repCount?⟩
  · intro v hv
    obtain ⟨_, _, _, _, _, _, _, _, hc, hg⟩ := addChannel_eq hadd
    obtain ⟨name', hname⟩ := hadded.vertices
    have hact : st.g.IsActor v := hv.of_append (by simp) hname
    have hvc : v ≠ c := by
      have := hact.lt
      omega
    rw [hg]
    exact Ports.addConsumers hvc _ ((h.ports v hact).addVertex.nextOut hvc)

/-! ## Actors and registers -/

section
variable {g : Graph} {u v : Nat} {vi : VertexInfo} {ei : EdgeInfo}

theorem Balancing.addVertex (h : Balancing ins outs g) (hvi : ∀ t s d, vi.type ≠ .fifo t s d) :
    Balancing ins outs (g.addVertex vi) := by
  refine ⟨h.closed.addVertex, ?_, ?_⟩
  · intro c name tokenSize capacity delay hc
    rw [Graph.vertices_addVertex] at hc
    by_cases hlt : c < g.vertices.length
    · rw [List.getElem?_append_left hlt] at hc
      obtain ⟨edProd, rep, hbal⟩ := h.channels c name tokenSize capacity delay hc
      exact ⟨edProd, rep, hbal.congr rfl rfl fun _ _ => Graph.repCount?_addVertex_of⟩
    · have hle := (List.getElem?_eq_some_iff.mp hc).1
      rw [List.length_append, List.length_singleton] at hle
      obtain rfl : c = g.vertices.length := by omega
      rw [List.getElem?_concat_length] at hc
      cases hc
      exact absurd rfl (hvi _ _ _)
  · intro v hv
    by_cases hlt : v < g.vertices.length
    · have hact : g.IsActor v := by
        unfold Graph.IsActor at hv ⊢
        rwa [Graph.repCount?_addVertex hlt] at hv
      exact (h.ports v hact).addVertex
    · have hout := h.closed.outEdges_nil (Nat.not_lt.mp hlt)
      have hin := h.closed.inEdges_nil (Nat.not_lt.mp hlt)
      refine Ports.addVertex ⟨?_, ?_, ?_, ?_⟩
      · simpa [hout] using numbered_nil
      · simpa [hin] using numbered_nil
      · simp [hin]
      · simp [hout]

theorem Balancing.addEdge (h : Balancing ins outs g) (hu : u < g.vertices.length) (hv : v < g.vertices.length)
    (hnot : ∀ c name t s d, g.vertices[c]? = some ⟨name, .fifo t s d⟩ → c ≠ u ∧ c ≠ v) {ins' outs' : List Nat}
    (hports : ∀ w, g.IsActor w → Ports (g.addEdge u v ei) ins' outs' w) :
    Balancing ins' outs' (g.addEdge u v ei) := by
  refine ⟨h.closed.addEdge hu hv, ?_, hports⟩
  intro c name tokenSize capacity delay hc
  obtain ⟨edProd, rep, hbal⟩ := h.channels c name tokenSize capacity delay hc
  obtain ⟨hcu, hcv⟩ := hnot c name _ _ _ hc
  refine ⟨edProd, rep, hbal.congr ?_ ?_ fun _ _ hr => hr⟩
  · rw [Graph.inEdges_addEdge, if_neg (Ne.symm hcv)]
  · rw [Graph.outEdges_addEdge, if_neg (Ne.symm hcu)]

end

theorem ne_fifo {g : Graph} {v c : Nat} {name name' : String} {tokenSize t s d : Nat} (hv : g.IsActor v)
    (hc : (g.addVertex ⟨name, .register tokenSize⟩).vertices[c]? = some ⟨name', .fifo t s d⟩) :
    c ≠ g.vertices.length ∧ c ≠ v := by
  refine ⟨?_, ?_⟩
  · intro heq
    rw [heq, Graph.vertices_addVertex, List.getElem?_concat_length] at hc
    cases hc
  · intro heq
    exact not_actor hc (heq ▸ hv.addVertex)

theorem Balancing.input (h : Balancing ins outs st.g) {pre : String} {v : Nat} (hv : v ∉ ins)
    (hact : st.g.IsActor v) : Balancing (v :: ins) outs (st.addInput pre v).g := by
  have hreg : Balancing ins outs (st.g.addVertex ⟨pre ++ "regIn" ++ toString (st.inputCount + 1),
      .register unknown⟩) := h.addVertex (by simp)
  refine hreg.addEdge (by simp) hact.addVertex.lt (fun c name t s d hc => ne_fifo hact hc) ?_
  intro w hw
  have hw' : st.g.IsActor w := hw.of_append (by simp) rfl
  exact (h.ports w hw').addVertex.input (Nat.ne_of_lt hw'.lt) hv

theorem Balancing.output (h : Balancing ins outs st.g) {pre : String} {v : Nat} (hv : v ∉ outs)
    (hact : st.g.IsActor v) : Balancing ins (v :: outs) (st.addOutput pre v).g := by
  have hreg : Balancing ins outs (st.g.addVertex ⟨pre ++ "regOut" ++ toString (st.outputCount + 1),
      .register unknown⟩) := h.addVertex (by simp)
  refine hreg.addEdge hact.addVertex.lt (by simp) (fun c name t s d hc => (ne_fifo hact hc).symm) ?_
  intro w hw
  have hw' : st.g.IsActor w := hw.of_append (by simp) rfl
  exact (h.ports w hw').addVertex.output (Nat.ne_of_lt hw'.lt) hv

/-! ## All phases -/

theorem balancing_start : Balancing [] [] start.g where
  closed := by
    intro e he
    cases he
  channels := by
    intro c name t s d hc
    simp [start, Graph.empty] at hc
  ports := by
    intro v hv
    exact absurd hv.lt (by simp [start, Graph.empty])

theorem kept_balancing (dag : Bool) : Kept dag fun st => Balancing [] [] st.g where
  actor _ _ _ h := h.addVertex (by simp)
  channel _ _ _ _ _ _ h hne _ hadd := h.channel hne hadd

theorem keptBySources_balancing (o : Options) (vdSource : Nat) :
    KeptBySources o vdSource fun ins outs st => Balancing ins outs st.g where
  channel _ _ _ _ _ _ h _ _ _ hadd := h.channel (by simp) hadd
  input _ _ _ _ h hv _ hact := h.input hv hact
  output _ _ _ _ h hv hact := h.output hv hact

theorem balancing_connectComponents (connected_components : Graph → Nat × (Nat → Nat)) (pre : String)
    (h : Balancing [] [] st.g) :
    Ensures (connectComponents connected_components pre st) fun st' => Balancing [] [] st'.g :=
  kept_connectComponents (I := fun st => Balancing [] [] st.g) (fun _ _ _ _ _ _ h hadd => h.channel (by simp) hadd) h _

/-- Whatever is drawn, the generated graph is consistent. -/
theorem generate_consistent (connected_components : Graph → Nat × (Nat → Nat)) (o : Options) (ds ds' : List Nat)
    (st : Generator) (h : generate connected_components o ds = some (st, ds')) : st.g.Consistent := by
  have hall : Ensures (generate connected_components o) fun st => ∃ ins outs, Balancing ins outs st.g := by
    unfold generate
    refine ensures_bind (ensures_clusterGraph (kept_balancing _) balancing_start) fun st hst => ?_
    refine ensures_bind (balancing_connectComponents connected_components _ hst) fun st hst => ?_
    refine ensures_addSources (fun vdSource _ => keptBySources_balancing o vdSource) ?_
    split
    · exact hst.addVertex (by simp)
    · exact hst
  obtain ⟨ins, outs, hbal⟩ := hall ds st ds' h
  refine ⟨hbal.channels, ?_⟩
  intro v hv
  exact ⟨(hbal.ports v hv).outNames.nodup, (hbal.ports v hv).inNames.nodup⟩

/-- Two actors that fire twice and three times, behind a source actor. -/
theorem generate_consistent_two : ∃ st ds', generate (fun _ => (1, fun _ => 0))
    ⟨none, [("a", 1)], true, false, false, true, true, true⟩ [2, 2, 1, 1, 2, 1, 1, 3, 0] = some (st, ds') ∧
      st.g.edges.map (·.tokens) = [3, 2, 2, 1, 1, 1] ∧ st.g.Consistent := by
  have hrun : ((generate (fun _ => (1, fun _ => 0)) ⟨none, [("a", 1)], true, false, false, true, true, true⟩
      [2, 2, 1, 1, 2, 1, 1, 3, 0]).map fun r => r.1.g.edges.map (·.tokens)) = some [3, 2, 2, 1, 1, 1] := by
    decide +kernel
  obtain ⟨⟨st, ds'⟩, hrun, htokens⟩ := Option.map_eq_some_iff.mp hrun
  exact ⟨st, ds', hrun, htokens, generate_consistent _ _ _ _ _ hrun⟩

end Generator

end SysteMoC.SNG
