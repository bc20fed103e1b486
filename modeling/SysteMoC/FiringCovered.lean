import SysteMoC.Elaboration
import SysteMoC.FiringSound

/-!
# Firings that their guards cover

When the communication of a firing stays within what the channels hold: the amounts of all
patterns together, and the commits after a reset.
-/

namespace SysteMoC

/-! ## Commits and places -/

theorem Room.restarts {room : Nat} {l : List (Option Nat)} {free : Nat} (h : Room room free l) :
    Room room 0 (l.dropWhile Option.isSome) := by
  induction l generalizing free with
  | nil => trivial
  | cons a l ih =>
    cases a with
    | none => exact h
    | some n => exact ih h.2

theorem room_of_sum {room : Nat} {l : List (Option Nat)} {free : Nat} (hsum : l.reduceOption.sum ≤ free)
    (h : Room room 0 (l.dropWhile Option.isSome)) : Room room free l := by
  induction l generalizing free with
  | nil => trivial
  | cons a l ih =>
    cases a with
    | none => exact h
    | some n =>
      rw [List.reduceOption_cons_of_some, List.sum_cons] at hsum
      exact ⟨by omega, ih (by omega) h⟩

namespace Wiring

section
variable {A I O S K Z : Type} [DecidableEq K] {net : Wiring A I O K Z} {l : List ((K ⊕ Z) × Nat)} {k k' : K} {z : Z} {n : Nat}

theorem steps_cons_self : net.steps ((.inl k, n) :: l) k = some n :: net.steps l k := by
  simp [steps]

theorem steps_cons_of_ne (h : k' ≠ k) : net.steps ((.inl k', n) :: l) k = net.steps l k := by
  simp [steps, h]

theorem steps_cons_reset (h : k ∈ net.resets z) : net.steps ((.inr z, n) :: l) k = none :: net.steps l k := by
  simp [steps, h]

theorem steps_cons_of_not (h : k ∉ net.resets z) : net.steps ((.inr z, n) :: l) k = net.steps l k := by
  simp [steps, h]

theorem steps_reduceOption : (net.steps l k).reduceOption =
    onChan (l.filterMap fun a => a.1.getLeft?.map fun k' => (k', a.2)) k := by
  induction l with
  | nil => rfl
  | cons a l ih =>
    obtain ⟨sink, n⟩ := a
    cases sink with
    | inl k' =>
      by_cases hk : k' = k
      · subst hk
        simp [steps_cons_self, List.reduceOption_cons_of_some, ih, onChan]
      · simp [steps_cons_of_ne hk, ih, onChan, hk]
    | inr z =>
      rw [List.filterMap_cons_none rfl, ← ih]
      by_cases hz : k ∈ net.resets z
      · rw [steps_cons_reset hz, List.reduceOption_cons_of_none]
      · rw [steps_cons_of_not hz]

omit [DecidableEq K] in
theorem commits_fifos (infos : List (PortOutInfo O)) :
    (net.commits infos).filterMap (fun a => a.1.getLeft?.map fun k => (k, a.2)) = writes net.fifos PortOutInfo.produced infos := by
  simp only [commits, writes, fifos, List.filterMap_flatMap, List.filterMap_map, List.map_filterMap]
  rfl

end

/-! ## Executing -/

def Sound {T ε : Type} [SmocEvent ε] (d i : Nat) (ch : FifoChan T ε) : Prop :=
  (∃ c v p, FifoChan.Counted d ch c v p) ∧ ch.initialTokens.length = i

section
variable {A I O S K Z T ε : Type} [Token T] [SmocEvent ε] [LawfulEvent ε] [DecidableEq K] {net : Wiring A I O K Z} {b : Build}
  {kind : K → ChanKind} {depth init : K → Nat} {σ σ' : K → FifoChan T ε}

omit [Token T] [LawfulEvent ε] in
theorem sound_update {k : K} {ch : FifoChan T ε} (h : ∀ k, Sound (depth k) (init k) (σ k)) (hch : Sound (depth k) (init k) ch)
    (k' : K) : Sound (depth k') (init k') (Function.update σ k ch k') := by
  by_cases hk : k' = k
  · subst hk
    rwa [Function.update_self]
  · rw [Function.update_of_ne hk]
    exact h k'

theorem inputs_ok (b : Build) (kind : K → ChanKind) {l : List (K × Nat)} (h : ∀ k, Sound (depth k) (init k) (σ k))
    (hfit : ∀ k, (onChan l k).sum ≤ (σ k).visibleCount) :
    ∃ σ', l.foldlM (commExecIn b kind) σ = some σ' ∧ ∀ k, Sound (depth k) (init k) (σ' k) ∧ (σ k).freeCount ≤ (σ' k).freeCount := by
  induction l generalizing σ with
  | nil => exact ⟨σ, rfl, fun k => ⟨h k, Nat.le_refl _⟩⟩
  | cons a l ih =>
    obtain ⟨k, n⟩ := a
    obtain ⟨⟨c, v, p, hc⟩, hinit⟩ := h k
    have hk := hfit k
    rw [onChan_cons_self, List.sum_cons, hc.areas.visibleCount_eq] at hk
    obtain ⟨ch, hch, -, hc', hinit'⟩ := ChanKind.commExecIn_run (kind k) b hc (k := n) (by omega)
    have hstep : commExecIn b kind σ (k, n) = some (Function.update σ k ch) := by
      rw [commExecIn, hch]
      rfl
    rw [List.foldlM_cons, hstep]
    obtain ⟨σ', hrun, hσ'⟩ := ih (sound_update h ⟨⟨_, _, _, hc'⟩, (congrArg List.length hinit').trans hinit⟩) fun k' => by
      by_cases hkk : k' = k
      · subst hkk
        rw [Function.update_self, hc'.areas.visibleCount_eq]
        omega
      · rw [Function.update_of_ne hkk, ← onChan_cons_of_ne (Ne.symm hkk)]
        exact hfit k'
    refine ⟨σ', hrun, fun k' => ⟨(hσ' k').1, Nat.le_trans ?_ (hσ' k').2⟩⟩
    by_cases hkk : k' = k
    · subst hkk
      rw [Function.update_self, hc.freeCount_eq, hc'.freeCount_eq]
      omega
    · rw [Function.update_of_ne hkk]

theorem resets_ok (b : Build) (kind : K → ChanKind) (l : List K) (h : ∀ k, Sound (depth k) (init k) (σ k)) :
    ∃ σ', l.foldlM (doReset b kind) σ = some σ' ∧ ∀ k, Sound (depth k) (init k) (σ' k) ∧
      (σ' k).freeCount = if k ∈ l then depth k - init k else (σ k).freeCount := by
  induction l generalizing σ with
  | nil => exact ⟨σ, rfl, fun k => ⟨h k, by simp⟩⟩
  | cons k l ih =>
    obtain ⟨⟨c, v, p, hc⟩, hinit⟩ := h k
    obtain ⟨ch, hch, hc', hinit'⟩ := ChanKind.doReset_run (kind k) b hc
    have hstep : doReset b kind σ k = some (Function.update σ k ch) := by
      rw [doReset, hch]
      rfl
    rw [List.foldlM_cons, hstep]
    obtain ⟨σ', hrun, hσ'⟩ := ih (sound_update h ⟨⟨_, _, _, hc'⟩, (congrArg List.length hinit').trans hinit⟩)
    refine ⟨σ', hrun, fun k' => ⟨(hσ' k').1, ?_⟩⟩
    rw [(hσ' k').2]
    by_cases hkk : k' = k
    · subst hkk
      rw [Function.update_self, hc'.freeCount_eq, hinit]
      simp
    · simp [hkk]

theorem commits_iff (net : Wiring A I O K Z) (kind : K → ChanKind) (l : List ((K ⊕ Z) × Nat))
    (h : ∀ k, Sound (depth k) (init k) (σ k)) :
    (∃ σ', l.foldlM (net.commExecOut .checked kind) σ = some σ') ↔
      (∀ z n, (.inr z, n) ∈ l → n = 1) ∧ ∀ k, Room (depth k - init k) (σ k).freeCount (net.steps l k) := by
  induction l generalizing σ with
  | nil => exact iff_of_true ⟨σ, rfl⟩ ⟨fun _ _ hmem => (List.not_mem_nil hmem).elim, fun _ => trivial⟩
  | cons a l ih =>
    obtain ⟨sink, n⟩ := a
    rw [List.foldlM_cons]
    cases sink with
    | inl k =>
      have hones : (∀ z m, (.inr z, m) ∈ (.inl k, n) :: l → m = 1) ↔ ∀ z m, (.inr z, m) ∈ l → m = 1 := by simp
      rw [hones]
      by_cases hn : n ≤ (σ k).freeCount
      · obtain ⟨⟨c, v, p, hc⟩, hinit⟩ := h k
        obtain ⟨ch, hch, -, hc', hinit'⟩ := ChanKind.commExecOut_run (kind k) .checked hc hn
        have hstep : net.commExecOut .checked kind σ (.inl k, n) = some (Function.update σ k ch) := by
          rw [commExecOut, Sum.elim_inl, hch]
          rfl
        have hfree : ch.freeCount = (σ k).freeCount - n := by
          rw [hc'.freeCount_eq, hc.freeCount_eq]
          omega
        rw [hstep, Option.bind_eq_bind, Option.bind_some, ih (sound_update h
            ⟨⟨_, _, _, hc'⟩, (congrArg List.length hinit').trans hinit⟩)]
        refine and_congr_right fun _ => forall_congr' fun k' => ?_
        by_cases hkk : k' = k
        · subst hkk
          rw [Function.update_self, hfree, steps_cons_self]
          exact (and_iff_right hn).symm
        · rw [Function.update_of_ne hkk, steps_cons_of_ne (Ne.symm hkk)]
      · refine iff_of_false (fun ⟨σ', hrun⟩ => ?_) fun hroom => ?_
        · obtain ⟨_, hstep, -⟩ := Option.bind_eq_some_iff.mp hrun
          obtain ⟨ch, hch, -⟩ := Option.bind_eq_some_iff.mp hstep
          exact hn (ChanKind.le_of_commExecOut hch)
        · have hk := hroom.2 k
          rw [steps_cons_self] at hk
          exact hn hk.1
    | inr z =>
      by_cases hone : n = 1
      · subst hone
        obtain ⟨σ₁, hrun, hσ₁⟩ := resets_ok .checked kind (net.resets z) h
        have hstep : net.commExecOut .checked kind σ (.inr z, 1) = some σ₁ := by
          rw [commExecOut, Sum.elim_inr, Build.assert_of _ rfl]
          exact hrun
        rw [hstep, Option.bind_eq_bind, Option.bind_some, ih fun k => (hσ₁ k).1]
        have hones : (∀ z' m, (.inr z', m) ∈ (.inr z, 1) :: l → m = 1) ↔ ∀ z m, (.inr z, m) ∈ l → m = 1 := by
          simp only [List.mem_cons, Prod.mk.injEq]
          exact ⟨fun hall z m hm => hall z m (.inr hm), fun hall z' m hm => hm.elim And.right (hall z' m)⟩
        rw [hones]
        refine and_congr_right fun _ => forall_congr' fun k => ?_
        rw [(hσ₁ k).2]
        by_cases hk : k ∈ net.resets z
        · rw [if_pos hk, steps_cons_reset hk]
          exact Iff.rfl
        · rw [if_neg hk, steps_cons_of_not hk]
      · refine iff_of_false (fun ⟨σ', hrun⟩ => ?_) fun hroom => hone (hroom.1 z n List.mem_cons_self)
        obtain ⟨_, hstep, -⟩ := Option.bind_eq_some_iff.mp hrun
        obtain ⟨_, hassert, -⟩ := Option.bind_eq_some_iff.mp hstep
        simp [Build.assert, Build.checked, hone] at hassert

end

end Wiring

/-! ## The check -/

section
variable {A I O S K Z T ε : Type} [Token T] [SmocEvent ε] [DecidableEq K]

def Connected (b : Build) (kind : K → ChanKind) (depth init : K → Nat) (rs : K → List EventRequest) (σ : K → FifoChan T ε) : Prop :=
  ∀ k, Elaborated (kind k) b (depth k) (rs k) (σ k) ∧ (σ k).initialTokens.length = init k

/-- Where the check holds, the firing takes no more than the channels hold, and no assertion fails. -/
def Wiring.Covered (net : Wiring A I O K Z) (b : Build) (kind : K → ChanKind) (depth init : K → Nat) (rs : K → List EventRequest)
    (fr : RuntimeFiringRule I O ((K → FifoChan T ε) × S)) : Prop :=
  ∀ σ sae s, Connected b kind depth init rs σ → net.check fr σ sae (σ, s) = true →
    (∀ k, (onChan (reads net.fifos PortInInfo.consumed fr.portInInfos) k).sum ≤ FifoOutlet.numAvailable (σ k) ∧
      (onChan (writes net.fifos PortOutInfo.produced fr.portOutInfos) k).sum ≤ FifoEntry.numFree (σ k)) ∧
    ∃ σ', net.executeFiringRule .checked kind fr σ = some σ'

namespace Guard

/-- Each pattern finds its tokens or places if it is looked at alone. -/
structure OneByOne (g : Guard I O S) (net : Ports I O K) (σ : K → FifoChan T ε) : Prop where
  demand : ∀ k, g.demand net k ≤ (σ k).visibleCount
  space : ∀ k, g.space net k ≤ (σ k).freeCount

/-- Where the patterns on a channel add up to more than one of them asks for, the rest of the guard
fails in the states in between. -/
structure Covers (g : Guard I O ((K → FifoChan T ε) × S)) (net : Wiring A I O K Z) (b : Build) (kind : K → ChanKind)
    (depth init : K → Nat) (rs : K → List EventRequest) : Prop where
  consumed : ∀ k, g.consumed net.fifos k ≤ g.demand net.fifos k ∨ ∀ σ s, Connected b kind depth init rs σ →
    g.OneByOne net.fifos σ → (σ k).visibleCount < g.consumed net.fifos k → ¬ g.Admits (σ, s)
  produced : ∀ k, g.produced net.fifos k ≤ g.space net.fifos k ∨ ∀ σ s, Connected b kind depth init rs σ →
    g.OneByOne net.fifos σ → (σ k).freeCount < g.produced net.fifos k → ¬ g.Admits (σ, s)
  restarts : (∃ σ s, Connected b kind depth init rs σ ∧ g.OneByOne net.fifos σ ∧ g.Admits (σ, s)) → g.Restarts net depth init

/-- Expressions and events do not look at the channels. -/
def Blind (g : Guard I O ((K → FifoChan T ε) × S)) : Prop := ∀ σ σ' s, g.Admits (σ, s) → g.Admits (σ', s)

variable [LawfulEvent ε] {net : Wiring A I O K Z} {b : Build} {kind : K → ChanKind} {depth init : K → Nat}
    {rs : K → List EventRequest}
  {σ : K → FifoChan T ε} {sae : Z → Bool} {s : S}

omit [DecidableEq K] in
theorem sound_of_connected (h : Connected b kind depth init rs σ) (k : K) : Wiring.Sound (depth k) (init k) (σ k) :=
  ⟨(h k).1.counted.1, (h k).2⟩

theorem check_iff {g : Guard I O S} {fr : RuntimeFiringRule I O S} (hfr : RuntimeFiringRule.new b g = some fr)
    (hσ : Connected b kind depth init rs σ) (hrs : ∀ k, fr.requests net.fifos k ⊆ rs k) :
    net.check fr σ sae s = true ↔ g.OneByOne net.fifos σ ∧ (net.awaited fr).all sae = true ∧ g.Admits s := by
  have hvalue : fr.guard = g := by rw [new_eq hfr]
  rw [Wiring.check, Bool.and_eq_true, Bool.and_eq_true, ioPatternActive_iff hfr (fun k => (hσ k).1) hrs, hvalue]
  constructor
  · intro ⟨⟨⟨hevents, hdemand, hspace⟩, hsae⟩, hholds⟩
    exact ⟨⟨hdemand, hspace⟩, hsae, hevents, hholds⟩
  · intro ⟨⟨hdemand, hspace⟩, hsae, hevents, hholds⟩
    exact ⟨⟨⟨hevents, hdemand, hspace⟩, hsae⟩, hholds⟩

theorem covered_iff {g : Guard I O ((K → FifoChan T ε) × S)} {fr : RuntimeFiringRule I O ((K → FifoChan T ε) × S)}
    (hfr : RuntimeFiringRule.new b g = some fr) (hrs : ∀ k, fr.requests net.fifos k ⊆ rs k) :
    net.Covered b kind depth init rs fr ↔ g.Covers net b kind depth init rs := by
  have hins : fr.portInInfos = g.inputs := by rw [new_eq hfr]
  have houts : fr.portOutInfos = g.outputs := by rw [new_eq hfr]
  constructor
  · intro h
    have hcov : ∀ σ s, Connected b kind depth init rs σ → g.OneByOne net.fifos σ → g.Admits (σ, s) →
        (∀ k, g.consumed net.fifos k ≤ (σ k).visibleCount ∧ g.produced net.fifos k ≤ (σ k).freeCount) ∧
          ∃ σ', net.executeFiringRule .checked kind fr σ = some σ' := by
      intro σ s hσ hone hadmits
      have hsae : (net.awaited fr).all (fun _ => true) = true := List.all_eq_true.mpr fun _ _ => rfl
      have hall := h σ (fun _ => true) s hσ ((check_iff hfr hσ hrs).mpr ⟨hone, hsae, hadmits⟩)
      rwa [hins, houts] at hall
    refine ⟨fun k => .inr fun σ s hσ hone hlt hadmits => ?_, fun k => .inr fun σ s hσ hone hlt hadmits => ?_, ?_⟩
    · exact absurd ((hcov σ s hσ hone hadmits).1 k).1 (Nat.not_le.mpr hlt)
    · exact absurd ((hcov σ s hσ hone hadmits).1 k).2 (Nat.not_le.mpr hlt)
    · intro ⟨σ, s, hσ, hone, hadmits⟩
      obtain ⟨hsums, σ', hrun⟩ := hcov σ s hσ hone hadmits
      obtain ⟨σ₁, hrun₁, hσ₁⟩ := Wiring.inputs_ok .checked kind (sound_of_connected hσ) fun k => (hsums k).1
      obtain ⟨σ₂, hrun₂, hcommits⟩ := Option.bind_eq_some_iff.mp hrun
      rw [hins, hrun₁] at hrun₂
      cases hrun₂
      rw [houts] at hcommits
      obtain ⟨hones, hroom⟩ := (Wiring.commits_iff net kind _ fun k => (hσ₁ k).1).mp ⟨σ', hcommits⟩
      exact ⟨hones, fun k => (hroom k).restarts⟩
  · intro h σ sae s hσ hcheck
    obtain ⟨hone, -, hadmits⟩ := (check_iff hfr hσ hrs).mp hcheck
    have hrestarts := h.restarts ⟨σ, s, hσ, hone, hadmits⟩
    have hconsumed : ∀ k, g.consumed net.fifos k ≤ (σ k).visibleCount := by
      intro k
      rcases h.consumed k with hle | hgap
      · exact hle.trans (hone.demand k)
      · by_contra hlt
        exact hgap σ s hσ hone (Nat.not_le.mp hlt) hadmits
    have hproduced : ∀ k, g.produced net.fifos k ≤ (σ k).freeCount := by
      intro k
      rcases h.produced k with hle | hgap
      · exact hle.trans (hone.space k)
      · by_contra hlt
        exact hgap σ s hσ hone (Nat.not_le.mp hlt) hadmits
    rw [hins, houts]
    refine ⟨fun k => ⟨hconsumed k, hproduced k⟩, ?_⟩
    obtain ⟨σ₁, hrun₁, hσ₁⟩ := Wiring.inputs_ok .checked kind (sound_of_connected hσ) hconsumed
    obtain ⟨σ', hrun⟩ := (Wiring.commits_iff net kind (net.commits g.outputs) fun k => (hσ₁ k).1).mpr
      ⟨hrestarts.one, fun k => by
        refine room_of_sum ?_ (hrestarts.room k)
        rw [Wiring.steps_reduceOption, Wiring.commits_fifos]
        exact (hproduced k).trans (hσ₁ k).2⟩
    refine ⟨σ', ?_⟩
    rw [Wiring.executeFiringRule, hins, houts, hrun₁]
    exact hrun

omit [DecidableEq K] in
theorem exists_connected [Inhabited T] {v : K → Nat}
    (hel : ∀ k l, ∃ ch₀ : FifoChan T ε, (rs k).foldlM ((kind k).request b) (.new (depth k) l) = some ch₀)
    (hinit : ∀ k, init k ≤ depth k) (hv : ∀ k, v k ≤ depth k) :
    ∃ σ : K → FifoChan T ε, Connected b kind depth init rs σ ∧ ∀ k, (σ k).visibleCount = v k ∧ (σ k).freeCount = depth k - v k := by
  choose σ hel hlen hcounts using fun k => Elaborated.exists_filled (hel k) (hinit k) (hv k)
  exact ⟨σ, fun k => ⟨hel k, hlen k⟩, hcounts⟩

/-- Without a look at the channels only a rule that is never enabled may ask for too little. -/
theorem covers_iff_of_blind [Inhabited T] {g : Guard I O ((K → FifoChan T ε) × S)} (hblind : g.Blind)
    (hel : ∀ k l, ∃ ch₀ : FifoChan T ε, (rs k).foldlM ((kind k).request b) (.new (depth k) l) = some ch₀)
    (hinit : ∀ k, init k ≤ depth k) :
    g.Covers net b kind depth init rs ↔ (g.Possible net.fifos depth → g.Sums net.fifos ∧ g.Restarts net depth init) := by
  constructor
  · intro h ⟨hfits, ⟨σ₀, s⟩, hadmits⟩
    -- as few tokens as the patterns ask for, and as few free places
    obtain ⟨σ, hσ, hcount⟩ := exists_connected hel hinit (v := g.demand net.fifos) fun k => by have := hfits k; omega
    obtain ⟨σ', hσ', hcount'⟩ := exists_connected hel hinit (v := fun k => depth k - g.space net.fifos k) fun k => Nat.sub_le _ _
    have hone : g.OneByOne net.fifos σ := by
      refine ⟨fun k => (hcount k).1.ge, fun k => ?_⟩
      have := hfits k
      rw [(hcount k).2]
      omega
    have hone' : g.OneByOne net.fifos σ' := by
      refine ⟨fun k => ?_, fun k => ?_⟩
      · have := hfits k
        rw [(hcount' k).1]
        omega
      · have := hfits k
        rw [(hcount' k).2]
        omega
    refine ⟨⟨fun k => ?_, fun k => ?_⟩, h.restarts ⟨σ, s, hσ, hone, hblind σ₀ σ s hadmits⟩⟩
    · rcases h.consumed k with hle | hgap
      · exact hle
      · by_contra hlt
        exact hgap σ s hσ hone (by rw [(hcount k).1]; omega) (hblind σ₀ σ s hadmits)
    · rcases h.produced k with hle | hgap
      · exact hle
      · by_contra hlt
        have := hfits k
        exact hgap σ' s hσ' hone' (by rw [(hcount' k).2]; omega) (hblind σ₀ σ' s hadmits)
  · intro h
    have hpossible : ∀ (σ : K → FifoChan T ε) s, Connected b kind depth init rs σ → g.OneByOne net.fifos σ → g.Admits (σ, s) →
        g.Possible net.fifos depth := by
      intro σ s hσ hone hadmits
      refine ⟨fun k => ?_, (σ, s), hadmits⟩
      obtain ⟨⟨c, v, p, hc⟩, -⟩ := (hσ k).1.counted
      have hdemand := hone.demand k
      have hspace := hone.space k
      have hfits := hc.areas.fits
      rw [hc.areas.visibleCount_eq] at hdemand
      rw [hc.freeCount_eq] at hspace
      rw [hc.fsize_eq] at hfits
      omega
    refine ⟨fun k => ?_, fun k => ?_, fun ⟨σ, s, hσ, hone, hadmits⟩ => (h (hpossible σ s hσ hone hadmits)).2⟩
    · by_cases hP : g.Possible net.fifos depth
      · exact .inl ((h hP).1.consumed_le k)
      · exact .inr fun σ s hσ hone _ hadmits => hP (hpossible σ s hσ hone hadmits)
    · by_cases hP : g.Possible net.fifos depth
      · exact .inl ((h hP).1.produced_le k)
      · exact .inr fun σ s hσ hone _ hadmits => hP (hpossible σ s hσ hone hadmits)

end Guard

end

/-! ## Rules with a port twice -/

namespace Guard

def resetting : Wiring Unit Unit Unit Unit Unit := ⟨id, fun _ => [.inr ()], fun _ => [.inl ()], fun _ => []⟩

def lookingTwice : FsmModel (FiringRule Unit Unit ((Unit → FifoChan Nat Bool) × Unit) Unit) where
  n := 1
  states _ := .firing
  hsinit := some ⟨0, Nat.one_pos⟩
  J := 1
  M := 0
  ptl _ := [⟨⟨.land (.input () 1 1) (.input () 1 1), []⟩, .junction ⟨0, Nat.one_pos⟩⟩]
  junction _ := [⟨⟨.land (.expr fun s => 2 ≤ FifoOutlet.numAvailable (s.1 ())) (.output () 1 1), []⟩, .state [0]⟩]
  multi k := k.elim0

def reading : Wiring Empty Unit Unit Unit Empty := ⟨id, fun _ => [], Empty.elim, Empty.elim⟩

end Guard

end SysteMoC
