import SysteMoC.FiringSound

/-!
# What a guard says

The evaluation of a guard by the templates for its operators, the reading of its port
patterns and events as conditions on the channels, and how the check of a transition goes
with it.
-/

namespace SysteMoC

/-! ## Evaluation -/

/-- The result types of `Value`: `ENABLED` for port patterns and events, or `bool`. -/
inductive Activation where
  | enabled
  | bool (b : Bool)
deriving DecidableEq, Repr

namespace Activation

/-- `operator bool`, and `ActivationStatus` of it. -/
def toBool : Activation → Bool
  | enabled => true
  | bool b => b

/-- `DBinOpExecute` for `LAnd` with its three specialisations. -/
def land : Activation → Activation → Activation
  | enabled, enabled => enabled
  | enabled, bool b => bool b
  | bool a, enabled => bool a
  | bool a, bool b => bool (a && b)

def lor (a b : Activation) : Activation := bool (a.toBool || b.toBool)

def lnot (a : Activation) : Activation := bool !a.toBool

@[simp] theorem land_toBool (a b : Activation) : (a.land b).toBool = (a.toBool && b.toBool) := by
  cases a <;> cases b <;> simp [land, toBool]

@[simp] theorem lor_toBool (a b : Activation) : (a.lor b).toBool = (a.toBool || b.toBool) := rfl

@[simp] theorem lnot_toBool (a : Activation) : a.lnot.toBool = !a.toBool := rfl

end Activation

namespace Guard

section
variable {I O S : Type}

/-- `evalTo<Value>`. -/
def eval (s : S) : Guard I O S → Activation
  | expr value => .bool (value s)
  | event _ => .enabled
  | input _ _ _ => .enabled
  | output _ _ _ => .enabled
  | lnot e => (e.eval s).lnot
  | land a b => (a.eval s).land (b.eval s)
  | lor a b => (a.eval s).lor (b.eval s)

theorem eval_toBool (s : S) (g : Guard I O S) : (g.eval s).toBool = g.value s := by
  induction g with
  | expr | event | input | output => rfl
  | lnot e ih => simp [eval, value, ih]
  | land a b iha ihb => simp [eval, value, iha, ihb]
  | lor a b iha ihb => simp [eval, value, iha, ihb]

def Plain : Guard I O S → Prop
  | expr _ => True
  | event _ => False
  | input _ _ _ => False
  | output _ _ _ => False
  | lnot e => e.Plain
  | land a b => a.Plain ∧ b.Plain
  | lor a b => a.Plain ∧ b.Plain

/-- Port patterns and events stand under no other operator than `&&`. -/
def Conjunctive : Guard I O S → Prop
  | expr _ => True
  | event _ => True
  | input _ _ _ => True
  | output _ _ _ => True
  | lnot e => e.Plain
  | land a b => a.Conjunctive ∧ b.Conjunctive
  | lor a b => a.Plain ∧ b.Plain

end

/-! ## Reading a guard -/

section
variable {I O S K T ε : Type} (net : Ports I O K) (σ : K → FifoChan T ε) (s : S)

/-- The expression, with `in(c, r)` for at least `r` visible tokens, `out(n)` for at least
`n` free places and `till(e)` for an active event. -/
def meaning : Guard I O S → Bool
  | expr value => value s
  | event isActive => isActive s
  | input p _ r => r ≤ (σ (net.source p)).visibleCount
  | output p _ r => (net.sinks p).all fun k => r ≤ (σ k).freeCount
  | lnot e => !e.meaning
  | land a b => a.meaning && b.meaning
  | lor a b => a.meaning || b.meaning

def AllHold : Guard I O S → Prop
  | expr _ => True
  | event isActive => isActive s = true
  | input p _ r => r ≤ (σ (net.source p)).visibleCount
  | output p _ r => ∀ k ∈ net.sinks p, r ≤ (σ k).freeCount
  | lnot e => e.AllHold
  | land a b => a.AllHold ∧ b.AllHold
  | lor a b => a.AllHold ∧ b.AllHold

end

section
variable {I O S K T ε : Type} {net : Ports I O K} {σ : K → FifoChan T ε} {s : S} {g : Guard I O S}

theorem value_of_allHold (h : g.AllHold net σ s) : g.value s = g.meaning net σ s := by
  induction g with
  | expr value => rfl
  | event isActive =>
    unfold AllHold at h
    rw [value, meaning, h]
  | input p c r =>
    unfold AllHold at h
    simp [value, meaning, h]
  | output p c r =>
    unfold AllHold at h
    rw [value, meaning, eq_comm, List.all_eq_true]
    intro k hk
    exact decide_eq_true (h k hk)
  | lnot e ih => rw [value, meaning, ih h]
  | land a b iha ihb => rw [value, meaning, iha h.1, ihb h.2]
  | lor a b iha ihb => rw [value, meaning, iha h.1, ihb h.2]

theorem Plain.allHold (h : g.Plain) : g.AllHold net σ s := by
  induction g with
  | expr => trivial
  | event | input | output => exact h.elim
  | lnot e ih => exact ih h
  | land a b iha ihb => exact ⟨iha h.1, ihb h.2⟩
  | lor a b iha ihb => exact ⟨iha h.1, ihb h.2⟩

theorem Conjunctive.allHold (h : g.Conjunctive) (hm : g.meaning net σ s = true) : g.AllHold net σ s := by
  induction g with
  | expr => trivial
  | event => exact hm
  | input p c r => exact of_decide_eq_true (p := r ≤ _) hm
  | output p c r =>
    intro k hk
    exact of_decide_eq_true (List.all_eq_true.mp hm k hk)
  | lnot e => exact Plain.allHold (g := e) h
  | land a b iha ihb =>
    rw [meaning, Bool.and_eq_true] at hm
    exact ⟨iha h.1 hm.1, ihb h.2 hm.2⟩
  | lor a b => exact ⟨Plain.allHold h.1, Plain.allHold h.2⟩

theorem allHold_iff : g.AllHold net σ s ↔ (∀ e ∈ g.events, e s = true) ∧
    (∀ info ∈ g.inputs, info.required ≤ (σ (net.source info.port)).visibleCount) ∧
    ∀ info ∈ g.outputs, ∀ k ∈ net.sinks info.port, info.required ≤ (σ k).freeCount := by
  induction g with
  | expr | event | input | output => simp [AllHold, events, inputs, outputs]
  | lnot e ih => simpa [AllHold, events, inputs, outputs] using ih
  | land a b iha ihb | lor a b iha ihb =>
    rw [AllHold, iha, ihb]
    simp only [events, inputs, outputs, List.mem_append, or_imp, forall_and]
    constructor
    · intro h
      exact ⟨⟨h.1.1, h.2.1⟩, ⟨h.1.2.1, h.2.2.1⟩, h.1.2.2, h.2.2.2⟩
    · intro h
      exact ⟨⟨h.1.1, h.2.1.1, h.2.2.1⟩, h.1.2, h.2.1.2, h.2.2.2⟩

end

/-! ## The check -/

section
variable {I O S K T ε : Type} [Token T] [SmocEvent ε] [LawfulEvent ε] [DecidableEq K] {b : Build} {kind : K → ChanKind}
  {depth : K → Nat} {rs : K → List EventRequest} {net : Ports I O K} {g : Guard I O S} {fr : RuntimeFiringRule I O S}
  {σ : K → FifoChan T ε} {s : S}

theorem ioPatternActive_iff_allHold (hfr : RuntimeFiringRule.new b g = some fr)
    (hσ : ∀ k, Elaborated (kind k) b (depth k) (rs k) (σ k)) (hrs : ∀ k, fr.requests net k ⊆ rs k) :
    fr.ioPatternActive net σ s = true ↔ g.AllHold net σ s := by
  rw [ioPatternActive_iff hfr hσ hrs, allHold_iff]
  refine and_congr_right fun _ => and_congr ?_ ?_
  · constructor
    · intro h info hinfo
      refine foldr_max_le.mp (h (net.source info.port)) info.required (mem_onChan.mpr ?_)
      exact List.mem_map.mpr ⟨info, hinfo, rfl⟩
    · intro h k
      refine foldr_max_le.mpr fun n hn => ?_
      obtain ⟨info, hinfo, heq⟩ := List.mem_map.mp (mem_onChan.mp hn)
      cases heq
      exact h info hinfo
  · constructor
    · intro h info hinfo k hk
      refine foldr_max_le.mp (h k) info.required (mem_onChan.mpr ?_)
      exact List.mem_flatMap.mpr ⟨info, hinfo, List.mem_map.mpr ⟨k, hk, rfl⟩⟩
    · intro h k
      refine foldr_max_le.mpr fun n hn => ?_
      obtain ⟨info, hinfo, hmem⟩ := List.mem_flatMap.mp (mem_onChan.mp hn)
      obtain ⟨k', hk', heq⟩ := List.mem_map.mp hmem
      cases heq
      exact h info hinfo _ hk'

omit [Token T] [LawfulEvent ε] [DecidableEq K] in
/-- The check as the source evaluates it. -/
theorem check_eq_eval (hfr : RuntimeFiringRule.new b g = some fr) :
    fr.check net σ s = (fr.ioPatternActive net σ s && (g.eval s).toBool) := by
  rw [RuntimeFiringRule.check, eval_toBool, new_eq hfr]

/-- A check holds where all patterns and events and the expression do, so for conjunctions
of them where the expression does. -/
theorem check_iff_meaning (hfr : RuntimeFiringRule.new b g = some fr)
    (hσ : ∀ k, Elaborated (kind k) b (depth k) (rs k) (σ k)) (hrs : ∀ k, fr.requests net k ⊆ rs k) :
    (fr.check net σ s = true ↔ g.AllHold net σ s ∧ g.meaning net σ s = true) ∧
      (g.Conjunctive → (fr.check net σ s = true ↔ g.meaning net σ s = true)) := by
  have hcheck : fr.check net σ s = true ↔ g.AllHold net σ s ∧ g.meaning net σ s = true := by
    rw [check_eq_eval hfr, Bool.and_eq_true, ioPatternActive_iff_allHold hfr hσ hrs, eval_toBool]
    refine and_congr_right fun h => ?_
    rw [value_of_allHold h]
  refine ⟨hcheck, fun hc => ?_⟩
  rw [hcheck]
  exact ⟨fun h => h.2, fun h => ⟨hc.allHold h, h⟩⟩

end

def inputAndVar : Guard Unit Unit Bool := .land (.input () 1 1) (.expr id)

theorem check_iff_meaning_inputAndVar : ∃ fr, ∃ ch : FifoChan Nat Bool,
    RuntimeFiringRule.new .checked inputAndVar = some fr ∧
      (fr.check ⟨id, fun _ => []⟩ (fun _ => ch) true = true ↔
        inputAndVar.meaning ⟨id, fun _ : Unit => []⟩ (fun _ => ch) true = true) := by
  obtain ⟨fr, hfr⟩ : ∃ fr, RuntimeFiringRule.new .checked inputAndVar = some fr := ⟨_, rfl⟩
  obtain ⟨ch₀, hreq⟩ : ∃ ch₀ : FifoChan Nat Bool, ([.data 1] : List EventRequest).foldlM (ChanKind.fifo.request .checked)
      (.new 2 [7]) = some ch₀ := ⟨_, rfl⟩
  obtain ⟨ch, hch, -⟩ := Elaborated.ofReset (by decide) hreq
  have hall : ∀ _ : Unit, Elaborated ChanKind.fifo .checked 2 [.data 1] ch := fun _ => hch
  refine ⟨fr, ch, hfr, (check_iff_meaning hfr hall ?_).2 ⟨trivial, trivial⟩⟩
  intro k
  rw [new_eq hfr]
  exact List.Subset.refl _

/-- On an empty channel `!in(1)` is true, and a disjunction with a pattern may be, but the check fails. -/
theorem negation_misread : ∃ ch : FifoChan Nat Bool, Elaborated .fifo .checked 2 [.data 1] ch ∧
    (∃ fr, RuntimeFiringRule.new .checked (.lnot (.input () 1 1) : Guard Unit Unit Unit) = some fr ∧
      fr.check ⟨id, fun _ => []⟩ (fun _ => ch) () = false ∧
      (.lnot (.input () 1 1) : Guard Unit Unit Unit).meaning ⟨id, fun _ => []⟩ (fun _ => ch) () = true) ∧
    ∃ fr, RuntimeFiringRule.new .checked (.lor (.input () 1 1) (.expr fun _ => true) : Guard Unit Unit Unit) = some fr ∧
      fr.check ⟨id, fun _ => []⟩ (fun _ => ch) () = false ∧
      (.lor (.input () 1 1) (.expr fun _ => true) : Guard Unit Unit Unit).meaning ⟨id, fun _ => []⟩ (fun _ => ch) () = true :=
  ⟨_, ⟨[], _, _, by decide, rfl, rfl, Relation.ReflTransGen.refl⟩, ⟨_, rfl, rfl, rfl⟩, _, rfl, rfl, rfl⟩

end Guard

end SysteMoC
