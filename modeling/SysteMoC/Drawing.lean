import Mathlib.Data.List.Basic

/-!
# Programs that draw numbers

A program takes the numbers it draws from a list. It has no outcome if it fails or
draws more than there are. `Ensures` speaks about all outcomes, `Returns` also says that
there is one.
-/

def Drawing (α : Type) : Type := List Nat → Option (α × List Nat)

namespace Drawing

instance : Monad Drawing where
  pure a := fun ds => some (a, ds)
  bind m f := fun ds => (m ds).bind fun r => f r.1 r.2

variable {α β : Type}

def draw : Drawing Nat
  | [] => none
  | d :: ds => some (d, ds)

def ofOption (o : Option α) : Drawing α := fun ds => o.map fun a => (a, ds)

def check (p : Prop) [Decidable p] : Drawing Unit := ofOption (if p then some () else none)

/-- A number from 0 to `n - 1`, the remainder of the number drawn. -/
def below (n : Nat) : Drawing Nat := do
  check (0 < n)
  return (← draw) % n

def belowOther (n k : Nat) : Drawing Nat
  | [] => none
  | d :: ds => if 0 < n then if d % n = k then belowOther n k ds else some (d % n, ds) else none

/-! ## All outcomes -/

def Ensures (m : Drawing α) (P : α → Prop) : Prop := ∀ ds a ds', m ds = some (a, ds') → P a

variable {m : Drawing α} {f : α → Drawing β} {P P' : α → Prop} {Q : β → Prop}

theorem Ensures.mono (h : Ensures m P) (hP : ∀ a, P a → P' a) : Ensures m P' :=
  fun ds a ds' hm => hP a (h ds a ds' hm)

theorem ensures_true : Ensures m fun _ => True := fun _ _ _ _ => trivial

theorem ensures_pure {a : α} (h : P a) : Ensures (pure a) P := by
  intro ds b ds' hm
  cases hm
  exact h

theorem ensures_bind (h : Ensures m P) (hf : ∀ a, P a → Ensures (f a) Q) : Ensures (m >>= f) Q := by
  intro ds b ds' hm
  obtain ⟨⟨a, ds₁⟩, ha, hb⟩ := Option.bind_eq_some_iff.mp hm
  exact hf a (h ds a ds₁ ha) ds₁ b ds' hb

theorem ensures_ofOption {o : Option α} (h : ∀ a, o = some a → P a) : Ensures (ofOption o) P := by
  intro ds a ds' hm
  obtain ⟨b, hb, heq⟩ := Option.map_eq_some_iff.mp hm
  cases heq
  exact h _ hb

theorem ensures_check (p : Prop) [Decidable p] : Ensures (check p) fun _ => p := by
  unfold check
  apply ensures_ofOption
  intro _ h
  by_cases hp : p
  · exact hp
  · simp [hp] at h

theorem ensures_below {n : Nat} : Ensures (below n) (· < n) := by
  unfold below
  refine ensures_bind (ensures_check (0 < n)) fun _ hn => ?_
  exact ensures_bind ensures_true fun d _ => ensures_pure (Nat.mod_lt d hn)

theorem ensures_belowOther {n k : Nat} : Ensures (belowOther n k) fun d => d < n ∧ d ≠ k := by
  intro ds
  induction ds with
  | nil =>
    intro a ds' h
    cases h
  | cons d ds ih =>
    intro a ds' h
    unfold belowOther at h
    split at h
    · rename_i hd
      split at h
      · exact ih a ds' h
      · rename_i hk
        cases h
        exact ⟨Nat.mod_lt d hd, hk⟩
    · cases h

/-- The invariant of a loop speaks about the elements done so far. -/
theorem ensures_foldlM_done {σ : Type} {I : List α → σ → Prop} {f : σ → α → Drawing σ} {l done : List α} {s : σ}
    (hf : ∀ done a rest s, l = done ++ a :: rest → I done s → Ensures (f s a) (I (done ++ [a])))
    {rest : List α} (hl : l = done ++ rest) (hs : I done s) : Ensures (rest.foldlM f s) (I l) := by
  induction rest generalizing s done with
  | nil =>
    rw [List.append_nil] at hl
    subst hl
    exact ensures_pure hs
  | cons a rest ih =>
    rw [List.foldlM_cons]
    exact ensures_bind (hf done a rest s hl hs) fun s' hs' => ih (by simp [hl]) hs'

theorem ensures_foldlM {σ : Type} {I : σ → Prop} {f : σ → α → Drawing σ} {l : List α} {s : σ}
    (hf : ∀ a ∈ l, ∀ s, I s → Ensures (f s a) I) (hs : I s) : Ensures (l.foldlM f s) I := by
  have hstep : ∀ done a rest s, l = done ++ a :: rest → I s → Ensures (f s a) I := by
    intro done a rest s hl
    exact hf a (by simp [hl]) s
  exact ensures_foldlM_done (I := fun _ => I) hstep (List.nil_append l).symm hs

/-! ## Programs that do not fail -/

/-- Whatever is drawn, there is an outcome that satisfies `P`, and `k` numbers are enough. -/
def Returns (k : Nat) (m : Drawing α) (P : α → Prop) : Prop :=
  ∀ ds, k ≤ ds.length → ∃ a ds', m ds = some (a, ds') ∧ ds.length ≤ ds'.length + k ∧ P a

variable {j k : Nat}

theorem Returns.exists_run (h : Returns k m P) : ∃ ds a ds', m ds = some (a, ds') ∧ P a := by
  obtain ⟨a, ds', hrun, _, ha⟩ := h (List.replicate k 0) (by simp)
  exact ⟨_, a, ds', hrun, ha⟩

theorem Returns.and_ensures (h : Returns k m P) (hm : Ensures m P') : Returns k m fun a => P a ∧ P' a := by
  intro ds hds
  obtain ⟨a, ds', hrun, hlen, ha⟩ := h ds hds
  exact ⟨a, ds', hrun, hlen, ha, hm ds a ds' hrun⟩

theorem Returns.mono (h : Returns k m P) (hP : ∀ a, P a → P' a) : Returns k m P' := by
  intro ds hds
  obtain ⟨a, ds', hrun, hlen, ha⟩ := h ds hds
  exact ⟨a, ds', hrun, hlen, hP a ha⟩

theorem returns_pure {a : α} (h : P a) : Returns k (pure a) P := fun ds _ => ⟨a, ds, rfl, Nat.le_add_right _ _, h⟩

theorem returns_bind (h : Returns j m P) (hf : ∀ a, P a → Returns k (f a) Q) : Returns (j + k) (m >>= f) Q := by
  intro ds hds
  obtain ⟨a, ds₁, ha, hlen, hPa⟩ := h ds (by omega)
  obtain ⟨b, ds₂, hb, hlen', hQb⟩ := hf a hPa ds₁ (by omega)
  exact ⟨b, ds₂, Option.bind_eq_some_iff.mpr ⟨_, ha, hb⟩, by omega, hQb⟩

theorem returns_ofOption {a : α} {o : Option α} (ho : o = some a) (h : P a) : Returns 0 (ofOption o) P :=
  fun ds _ => ⟨a, ds, by rw [ofOption, ho]; rfl, Nat.le_refl _, h⟩

theorem returns_draw : Returns 1 draw fun _ => True := by
  intro ds hds
  cases ds with
  | nil => cases hds
  | cons d ds => exact ⟨d, ds, rfl, Nat.le_refl _, trivial⟩

theorem returns_below {n : Nat} (hn : 0 < n) : Returns 1 (below n) (· < n) := by
  have hcheck : Returns 0 (check (0 < n)) fun _ => True := returns_ofOption (if_pos hn) trivial
  refine returns_bind (k := 1) hcheck fun _ _ => ?_
  exact returns_bind (k := 0) returns_draw fun d _ => returns_pure (Nat.mod_lt d hn)

theorem returns_foldlM_done {σ : Type} {I : List α → σ → Prop} {f : σ → α → Drawing σ} {l done : List α} {s : σ}
    (hf : ∀ done a rest s, l = done ++ a :: rest → I done s → Returns 0 (f s a) (I (done ++ [a])))
    {rest : List α} (hl : l = done ++ rest) (hs : I done s) : Returns 0 (rest.foldlM f s) (I l) := by
  induction rest generalizing s done with
  | nil =>
    rw [List.append_nil] at hl
    subst hl
    exact returns_pure hs
  | cons a rest ih =>
    rw [List.foldlM_cons]
    exact returns_bind (k := 0) (hf done a rest s hl hs) fun s' hs' => ih (by simp [hl]) hs'

end Drawing
