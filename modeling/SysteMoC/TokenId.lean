import SysteMoC.FifoSound

/-!
# Token ids

The reader derives the id of a token from the writer's counter and the number of
used slots. The ids follow the tokens until tokens are dropped behind visible
ones.
-/

namespace SysteMoC

open FifoChan

namespace AbsQueue

variable {α : Type} {a : AbsQueue α} {ts : List α} {op : FifoOp α}

theorem areas_step (ts : List α) (op : FifoOp α) (hp : a.Placed op) (hin : ∀ k, op = .outletStart k → k ≤ a.visible.length)
    (hout : ∀ k d, op = .entryFinish k d → k ≤ a.pipeline.length) :
    areasAfter ts.length a.consumed.length a.visible.length a.pipeline.length op =
      ((a.step ts op).consumed.length, (a.step ts op).visible.length, (a.step ts op).pipeline.length) := by
  cases op with
  | write limit i t => rfl
  | entryStart k =>
    have hlen : (a.stagedPrefix k).length = k := Pick.length_tabulate hp
    simp [areasAfter, step, hlen]
  | entryFinish k dropped =>
    have hk := hout k dropped rfl
    cases dropped <;> simp [areasAfter, step, Nat.min_eq_left hk]
  | outletStart k => simp [areasAfter, step, Nat.min_eq_left (hin k rfl)]
  | outletFinish k => simp [areasAfter, step]
  | doReset => simp [areasAfter, step, initial]

end AbsQueue

/-! ## Consecutive ids -/

/-- The committed tokens of `l` have the ids that count on from `id₀`. -/
def NamedFrom (id₀ : UInt64) (l : List (Option UInt64)) : Prop :=
  ∀ i id, l[i]? = some (some id) → id₀ + UInt64.ofNat i = id

namespace NamedFrom

variable {id₀ : UInt64} {l : List (Option UInt64)} {k : Nat}

theorem drop (h : NamedFrom id₀ l) (k : Nat) : NamedFrom (id₀ + UInt64.ofNat k) (l.drop k) := by
  intro i id hi
  rw [List.getElem?_drop] at hi
  rw [← h (k + i) id hi, UInt64.ofNat_add]
  grind

theorem append {m : List (Option UInt64)} (h : NamedFrom id₀ l) (hm : NamedFrom (id₀ + UInt64.ofNat l.length) m) :
    NamedFrom id₀ (l ++ m) := by
  intro i id hi
  by_cases hlt : i < l.length
  · rw [List.getElem?_append_left hlt] at hi
    exact h i id hi
  · rw [List.getElem?_append_right (Nat.le_of_not_lt hlt)] at hi
    have := hm _ id hi
    rw [← this, UInt64.add_assoc, ← UInt64.ofNat_add, Nat.add_sub_cancel' (Nat.le_of_not_lt hlt)]

theorem right {m : List (Option UInt64)} (h : NamedFrom id₀ (l ++ m)) : NamedFrom (id₀ + UInt64.ofNat l.length) m := by
  have := h.drop l.length
  rwa [List.drop_left] at this

theorem left {m : List (Option UInt64)} (h : NamedFrom id₀ (l ++ m)) : NamedFrom id₀ l := by
  intro i id hi
  refine h i id ?_
  rw [List.getElem?_append_left (List.getElem?_eq_some_iff.mp hi).1]
  exact hi

theorem of_none (h : ∀ id ∈ l, id = none) : NamedFrom id₀ l := by
  intro i id hi
  cases h _ (List.mem_of_getElem? hi)

theorem tabulate : NamedFrom id₀ (Pick.tabulate (fun j => some (some (id₀ + UInt64.ofNat j))) k) := by
  intro i id hi
  have hall : ∀ j < k, (some (some (id₀ + UInt64.ofNat j))).isSome := fun _ _ => rfl
  have hlt : i < k := by
    have := (List.getElem?_eq_some_iff.mp hi).1
    rwa [Pick.length_tabulate hall] at this
  rw [Pick.getElem?_tabulate hall hlt] at hi
  cases hi
  rfl

end NamedFrom

/-! ## Ids along a run -/

/-- The queue of ids: a committed token is `some` id, an initial one has none. -/
abbrev IdQueue := AbsQueue (Option UInt64)

/-- The tokens of the next commit bear the ids from `id` on. -/
def IdQueue.label (a : IdQueue) (id : UInt64) : IdQueue :=
  { a with staged := fun j => some (some (id + UInt64.ofNat j)) }

/-- The operation in terms of ids. -/
def FifoOp.onIds {T : Type} : FifoOp T → FifoOp (Option UInt64)
  | .write limit i _ => .write limit i none
  | .entryStart k => .entryStart k
  | .entryFinish k dropped => .entryFinish k dropped
  | .outletStart k => .outletStart k
  | .outletFinish k => .outletFinish k
  | .doReset => .doReset

namespace FifoChan

variable {T ε : Type} [Token T] [SmocEvent ε] {b : Build} {n : Nat} {ch ch' : FifoChan T ε} {a a' : IdQueue}
  {op : FifoOp T}

def idStep (ch : FifoChan T ε) (a : IdQueue) (op : FifoOp T) : IdQueue :=
  (a.label (FifoEntry.outTokenId ch)).step (ch.initialTokens.map fun _ => none) op.onIds

/-- What is dropped fits an `int`, and no committed token is visible before it. -/
def KeepsIds (a : IdQueue) : FifoOp T → Prop
  | .entryFinish k true => DropFits T a.visible.length k ∧ (k = 0 ∨ ∀ id ∈ a.visible, id = none)
  | _ => True

/-- A guarded step under the condition `allowed`, with the ids along. -/
def IdStep (allowed : IdQueue → FifoOp T → Prop) (b : Build) (s s' : FifoChan T ε × IdQueue) : Prop :=
  ∃ op, allowed s.2 op ∧ s.1.Guarded op ∧ s.1.step b op = some s'.1 ∧ s'.2 = idStep s.1 s.2 op

structure Identified (n : Nat) (ch : FifoChan T ε) (a : IdQueue) : Prop where
  counted : Counted n ch a.consumed.length a.visible.length a.pipeline.length
  named : NamedFrom (FifoOutlet.inTokenId ch) (a.visible ++ a.pipeline)

theorem tokenId_step (h : ch.step b op = some ch') :
    ch'.tokenId = ch.tokenId + match op with | .entryStart k => UInt64.ofNat k | _ => 0 := by
  cases op with
  | write limit i t =>
    obtain ⟨_, _, heq⟩ := Option.bind_eq_some_iff.mp h
    cases heq
    simp
  | entryStart k =>
    obtain ⟨_, _, heq⟩ := Option.bind_eq_some_iff.mp h
    cases heq
    rfl
  | entryFinish k dropped =>
    cases dropped with
    | false =>
      obtain ⟨_, _, heq⟩ := Option.bind_eq_some_iff.mp h
      cases heq
      simp [withQueue]
    | true =>
      obtain ⟨_, hinv, heq⟩ := Option.bind_eq_some_iff.mp h
      obtain ⟨_, _, hinv⟩ := Option.bind_eq_some_iff.mp hinv
      cases hinv
      cases heq
      simp [withQueue]
  | outletStart k =>
    obtain ⟨_, _, heq⟩ := Option.bind_eq_some_iff.mp h
    cases heq
    simp [withQueue]
  | outletFinish k =>
    rw [FifoChan.step, FifoOutlet.commFinish_eq] at h
    obtain ⟨_, _, heq⟩ := Option.bind_eq_some_iff.mp h
    cases heq
    simp [withQueue]
  | doReset =>
    obtain ⟨_, _, heq⟩ := Option.bind_eq_some_iff.mp h
    cases heq
    simp [withQueue]

omit [Token T] in
theorem Identified.used_eq (h : Identified n ch a) : ch.usedCount = (a.visible ++ a.pipeline).length := by
  rw [h.counted.areas.usedCount_eq, List.length_append]

variable [LawfulEvent ε]

theorem Identified.step_counted (h : Identified n ch a) (hk : KeepsIds a op) (hg : ch.Guarded op)
    (hs : ch.step b op = some ch') :
    Counted n ch' (idStep ch a op).consumed.length (idStep ch a op).visible.length (idStep ch a op).pipeline.length := by
  have hf : ch.Fits op := by
    cases op with
    | entryFinish k dropped =>
      cases dropped with
      | false => trivial
      | true =>
        change DropFits T ch.visibleCount k
        rw [h.counted.areas.visibleCount_eq]
        exact hk.1
    | _ => trivial
  obtain ⟨c, v, p, hareas, hc, _⟩ := h.counted.step hg hf hs
  have hlen : areasAfter ch.initialTokens.length a.consumed.length a.visible.length a.pipeline.length op =
      ((idStep ch a op).consumed.length, (idStep ch a op).visible.length, (idStep ch a op).pipeline.length) := by
    have := (a.label (FifoEntry.outTokenId ch)).areas_step (ch.initialTokens.map fun _ => none) op.onIds
      (by cases op <;> simp [FifoOp.onIds, AbsQueue.Placed, IdQueue.label])
      (by
        intro k hk
        cases op <;> cases hk
        change k ≤ a.visible.length
        rw [← h.counted.areas.visibleCount_eq]
        exact hg)
      (by
        intro k d hk
        cases op <;> cases hk
        change k ≤ a.pipeline.length
        rw [← h.counted.pipelineCount_eq]
        exact hg)
    rw [List.length_map] at this
    refine Eq.trans ?_ this
    cases op <;> rfl
  rw [hlen] at hareas
  cases hareas
  exact hc

theorem sub_ofNat_sub (id : UInt64) {m k : Nat} (h : k ≤ m) :
    id - UInt64.ofNat (m - k) = id - UInt64.ofNat m + UInt64.ofNat k := by
  conv_rhs => rw [← Nat.sub_add_cancel h, UInt64.ofNat_add]
  grind

omit [Token T] [SmocEvent ε] [LawfulEvent ε] in
theorem used_idStep : (idStep ch a op).visible ++ (idStep ch a op).pipeline =
    match op with
    | .entryStart k => a.visible ++ a.pipeline ++ (a.label (FifoEntry.outTokenId ch)).stagedPrefix k
    | .entryFinish k true => a.visible ++ a.pipeline.drop k
    | .outletStart k => a.visible.drop k ++ a.pipeline
    | .doReset => ch.initialTokens.map fun _ => none
    | _ => a.visible ++ a.pipeline := by
  cases op with
  | entryFinish k dropped => cases dropped <;> simp [idStep, FifoOp.onIds, AbsQueue.step, IdQueue.label]
  | _ => simp [idStep, FifoOp.onIds, AbsQueue.step, AbsQueue.initial, IdQueue.label]

theorem Identified.step (h : Identified n ch a) (hk : KeepsIds a op) (hg : ch.Guarded op)
    (hs : ch.step b op = some ch') : Identified n ch' (idStep ch a op) := by
  have hc := h.step_counted hk hg hs
  refine ⟨hc, ?_⟩
  have hn := h.named
  rw [FifoOutlet.inTokenId, h.used_eq] at hn
  rw [FifoOutlet.inTokenId, hc.areas.usedCount_eq, ← List.length_append, tokenId_step hs, used_idStep]
  cases op with
  | write limit i t | outletFinish k => simpa using hn
  | entryStart k =>
    have hstaged : ∀ j < k, ((a.label (FifoEntry.outTokenId ch)).staged j).isSome := fun _ _ => rfl
    have hlen : ((a.label (FifoEntry.outTokenId ch)).stagedPrefix k).length = k := Pick.length_tabulate hstaged
    have hfrom : ch.tokenId + UInt64.ofNat k - UInt64.ofNat ((a.visible ++ a.pipeline).length + k) =
        ch.tokenId - UInt64.ofNat (a.visible ++ a.pipeline).length := by
      rw [UInt64.ofNat_add]
      grind
    simp only
    rw [List.length_append, hlen, hfrom]
    refine hn.append ?_
    rw [UInt64.sub_add_cancel]
    exact NamedFrom.tabulate
  | entryFinish k dropped =>
    have hkp : k ≤ a.pipeline.length := by
      rw [← h.counted.pipelineCount_eq]
      exact hg
    cases dropped with
    | false => simpa using hn
    | true =>
      have hlen : (a.visible ++ a.pipeline.drop k).length = (a.visible ++ a.pipeline).length - k := by
        simp only [List.length_append, List.length_drop]
        omega
      have hle : k ≤ (a.visible ++ a.pipeline).length := by
        rw [List.length_append]
        omega
      have hright := hn.right.drop k
      simp only [UInt64.add_zero]
      rw [hlen, sub_ofNat_sub _ hle]
      refine NamedFrom.append ?_ ?_
      · rcases hk.2 with hk | hk
        · rw [hk, show UInt64.ofNat 0 = 0 from rfl, UInt64.add_zero]
          exact hn.left
        · exact .of_none hk
      · rwa [UInt64.add_assoc, UInt64.add_comm (UInt64.ofNat k), ← UInt64.add_assoc]
  | outletStart k =>
    have hkv : k ≤ a.visible.length := by
      rw [← h.counted.areas.visibleCount_eq]
      exact hg
    have hlen : (a.visible.drop k ++ a.pipeline).length = (a.visible ++ a.pipeline).length - k := by
      simp only [List.length_append, List.length_drop]
      omega
    have hle : k ≤ (a.visible ++ a.pipeline).length := by
      rw [List.length_append]
      omega
    simp only [UInt64.add_zero]
    rw [hlen, sub_ofNat_sub _ hle, ← List.drop_append_of_le_length hkv]
    exact hn.drop k
  | doReset =>
    apply NamedFrom.of_none
    simp

theorem Identified.run {s s' : FifoChan T ε × IdQueue} (h : Identified n s.1 s.2)
    (hr : Relation.ReflTransGen (IdStep KeepsIds b) s s') : Identified n s'.1 s'.2 := by
  induction hr with
  | refl => exact h
  | tail _ hstep ih =>
    obtain ⟨op, hk, hg, hs, ha⟩ := hstep
    rw [ha]
    exact ih.step hk hg hs

/-- As long as no tokens are dropped behind committed ones, reader and writer agree
on the ids. -/
theorem token_ids_agree {l : List T} {rs : List EventRequest} {ch₀ ch₁ : FifoChan T ε} (hl : l.length ≤ n)
    (hreq : rs.foldlM (request b) (new n l) = some ch₀) (hreset : ch₀.doReset b = some ch₁) (ch : FifoChan T ε)
    (a : IdQueue) (hrun : Relation.ReflTransGen (IdStep KeepsIds b) (ch₁, .initial (l.map fun _ => none)) (ch, a)) :
    FifoOutlet.numAvailable ch = a.visible.length ∧
      ∀ i id, a.visible[i]? = some (some id) → FifoOutlet.inTokenId ch + UInt64.ofNat i = id := by
  obtain ⟨hq₀, hi₀, _⟩ := requests_queue hreq
  have hareas : Areas ch₀.toQueueFRVWPtr 0 0 0 := by rw [hq₀]; exact areas_new n l
  obtain ⟨hc₁, _⟩ := Counted.ofReset (n := n) hareas (by rw [hq₀]; rfl) (by rw [hi₀]; exact hl) hreset
  have h₁ : Identified n ch₁ (.initial (l.map fun _ => none)) := by
    refine ⟨?_, NamedFrom.of_none (by simp [AbsQueue.initial])⟩
    rw [hi₀] at hc₁
    simpa [AbsQueue.initial, FifoChan.new] using hc₁
  have h : Identified n ch a := h₁.run hrun
  refine ⟨h.counted.areas.visibleCount_eq, fun i id hi => h.named i id ?_⟩
  rw [List.getElem?_append_left (List.getElem?_eq_some_iff.mp hi).1]
  exact hi

def perform (b : Build) (s : FifoChan T ε × IdQueue) (op : FifoOp T) : Option (FifoChan T ε × IdQueue) := do
  guard (s.1.Guarded op)
  return (← s.1.step b op, idStep s.1 s.2 op)

omit [LawfulEvent ε] in
theorem perform_run {allowed : IdQueue → FifoOp T → Prop} {ops : List (FifoOp T)} : ∀ {ch ch' : FifoChan T ε}
    {a a' : IdQueue}, ops.foldlM (perform b) (ch, a) = some (ch', a') → (∀ a, ∀ op ∈ ops, allowed a op) →
    Relation.ReflTransGen (IdStep allowed b) (ch, a) (ch', a') := by
  induction ops with
  | nil =>
    intro ch ch' a a' h _
    cases h
    exact .refl
  | cons op ops ih =>
    intro ch ch' a a' h hall
    rw [List.foldlM_cons] at h
    obtain ⟨⟨ch₁, a₁⟩, h₁, h⟩ := Option.bind_eq_some_iff.mp h
    obtain ⟨_, hg, h₁⟩ := Option.bind_eq_some_iff.mp h₁
    obtain ⟨ch₂, hs, heq⟩ := Option.bind_eq_some_iff.mp h₁
    cases heq
    refine Relation.ReflTransGen.head ⟨op, hall a op List.mem_cons_self, ?_, hs, rfl⟩
      (ih h fun a op hop => hall a op (List.mem_cons_of_mem _ hop))
    by_contra hng
    rw [guard, if_neg hng] at hg
    cases hg

/-- A token committed with id 0 and read with id 1 after another one is dropped. -/
def dropBehind : List (FifoOp Nat) :=
  [.write 1 0 7, .entryStart 1, .entryFinish 1 false, .write 1 0 8, .entryStart 1, .entryFinish 1 true]

theorem token_ids_agree_commit :
    ∃ ch : FifoChan Nat Bool, FifoOutlet.numAvailable ch = 1 ∧ FifoOutlet.inTokenId ch + UInt64.ofNat 0 = 0 := by
  obtain ⟨ch₁, ch, a, hreset, hrun, hvis⟩ : ∃ (ch₁ ch : FifoChan Nat Bool) (a : IdQueue),
      doReset .checked (new 2 []) = some ch₁ ∧
      [FifoOp.write 1 0 7, .entryStart 1, .entryFinish 1 false].foldlM (perform .checked) (ch₁, .initial []) =
        some (ch, a) ∧
      a.visible = [some 0] := ⟨_, _, _, rfl, rfl, rfl⟩
  have hids := token_ids_agree (n := 2) (b := .checked) (l := ([] : List Nat)) (by decide)
    (show [].foldlM _ (new 2 []) = some _ from rfl) hreset ch a
    (perform_run hrun fun a op hop => by
      simp only [List.mem_cons, List.not_mem_nil, or_false] at hop
      rcases hop with rfl | rfl | rfl <;> trivial)
  rw [hvis] at hids
  exact ⟨ch, hids.1, hids.2 0 0 rfl⟩

theorem dropped_behind_visible :
    ∃ (ch₁ ch : FifoChan Nat Bool) (a : IdQueue), doReset .checked (new 2 []) = some ch₁ ∧
      Relation.ReflTransGen (IdStep (fun _ _ => True) .checked) (ch₁, .initial []) (ch, a) ∧
      a.visible = [some 0] ∧ FifoOutlet.inTokenId ch + UInt64.ofNat 0 = 1 := by
  obtain ⟨ch₁, ch, a, hreset, hrun, hvis, hid⟩ : ∃ (ch₁ ch : FifoChan Nat Bool) (a : IdQueue),
      doReset .checked (new 2 []) = some ch₁ ∧
      dropBehind.foldlM (perform .checked) (ch₁, .initial []) = some (ch, a) ∧
      a.visible = [some 0] ∧ FifoOutlet.inTokenId ch + UInt64.ofNat 0 = 1 := ⟨_, _, _, rfl, rfl, rfl, rfl⟩
  exact ⟨ch₁, ch, a, hreset, perform_run hrun fun _ _ _ => trivial, hvis, hid⟩

end FifoChan

end SysteMoC
