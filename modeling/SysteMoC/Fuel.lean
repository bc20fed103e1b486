import Mathlib.Data.List.Forall2
import Mathlib.Tactic.Common

/-!
# Computations with fuel

A computation that may fail gives nothing while its fuel is too low and keeps its
result with more fuel. It settles on a result or never has one.
-/

namespace Fuel

/-- A result or an exception, nothing where the fuel runs out. -/
abbrev Result (ε α : Type) := ExceptT ε Option α

def lift {ε α : Type} (x : Except ε α) : Result ε α := some x

variable {ε α β : Type} {x : Nat → Result ε α} {f : α → Nat → Result ε β} {r r' : Except ε α} {a : α} {b : β} {e : ε}

/-- Where the first has a result, the second has it too. -/
def Le (x y : Result ε α) : Prop := ∀ r, x = some r → y = some r

def Mono (x : Nat → Result ε α) : Prop := ∀ n n', n ≤ n' → Le (x n) (x n')

def Never (x : Nat → Result ε α) : Prop := ∀ n, x n = none

def Settles (x : Nat → Result ε α) (r : Except ε α) : Prop := ∃ n, ∀ n' ≥ n, x n' = some r

/-! ## Results -/

theorem Settles.of_eq (hx : Mono x) {n : Nat} (h : x n = some r) : Settles x r := ⟨n, fun n' hn => hx n n' hn r h⟩

theorem Settles.unique (h : Settles x r) (h' : Settles x r') : r = r' := by
  obtain ⟨n, hn⟩ := h
  obtain ⟨n', hn'⟩ := h'
  exact Option.some.inj ((hn _ (Nat.le_max_left n n')).symm.trans (hn' _ (Nat.le_max_right n n')))

theorem Settles.not_never (h : Settles x r) : ¬ Never x := by
  intro hnever
  obtain ⟨n, hn⟩ := h
  have := (hnever n).symm.trans (hn n (Nat.le_refl n))
  cases this

theorem Settles.eq_of_some (h : Settles x r) (hx : Mono x) {n : Nat} (hn : x n = some r') : r' = r :=
  (Settles.of_eq hx hn).unique h

theorem never_or_settles (hx : Mono x) : Never x ∨ ∃ r, Settles x r := by
  by_cases h : Never x
  · exact .inl h
  · right
    simp only [Never, not_forall] at h
    obtain ⟨n, hn⟩ := h
    obtain ⟨r, hr⟩ := Option.ne_none_iff_exists'.mp hn
    exact ⟨r, .of_eq hx hr⟩

theorem settles_succ : Settles (fun n => x (n + 1)) r ↔ Settles x r := by
  constructor
  · rintro ⟨n, hn⟩
    refine ⟨n + 1, fun n' hn' => ?_⟩
    obtain ⟨k, rfl⟩ := Nat.exists_eq_add_of_le' (Nat.le_trans (Nat.le_add_left 1 n) hn')
    exact hn k (Nat.le_of_succ_le_succ hn')
  · rintro ⟨n, hn⟩
    exact ⟨n, fun n' hn' => hn (n' + 1) (Nat.le_succ_of_le hn')⟩

theorem never_succ (h₀ : x 0 = none) : (Never fun n => x (n + 1)) ↔ Never x := by
  constructor
  · intro h n
    cases n with
    | zero => exact h₀
    | succ n => exact h n
  · exact fun h n => h (n + 1)

theorem settles_pure : Settles (fun _ => (some r : Result ε α)) r := ⟨0, fun _ _ => rfl⟩

theorem mono_pure (r : Except ε α) : Mono fun _ => (some r : Result ε α) := fun _ _ _ _ h => h

theorem settles_pure_iff : Settles (fun _ => (some r : Result ε α)) r' ↔ r = r' :=
  ⟨fun h => settles_pure.unique h, fun h => h ▸ settles_pure⟩

theorem not_never_pure : ¬ Never fun _ => (some r : Result ε α) := settles_pure.not_never

/-! ## One after the other -/

theorem bind_of_none {x : Result ε α} {f : α → Result ε β} (h : x = none) : x >>= f = none := by
  rw [h]
  rfl

theorem bind_of_error {x : Result ε α} {f : α → Result ε β} (h : x = some (.error e)) : x >>= f = some (.error e) := by
  rw [h]
  rfl

theorem bind_of_ok {x : Result ε α} {f : α → Result ε β} (h : x = some (.ok a)) : x >>= f = f a := by
  rw [h]
  rfl

theorem bind_ok {x : Result ε α} {f : α → Result ε β} (h : x >>= f = some (.ok b)) :
    ∃ a, x = some (.ok a) ∧ f a = some (.ok b) := by
  match x with
  | none => cases h
  | some (.error e) => cases h
  | some (.ok a) => exact ⟨a, rfl, h⟩

theorem bind_error {x : Result ε α} {f : α → Result ε β} (h : x >>= f = some (.error e)) :
    x = some (.error e) ∨ ∃ a, x = some (.ok a) ∧ f a = some (.error e) := by
  match x with
  | none => cases h
  | some (.error e') =>
    cases h
    exact .inl rfl
  | some (.ok a) => exact .inr ⟨a, rfl, h⟩

theorem le_bind {x y : Result ε α} {f g : α → Result ε β} (hx : Le x y) (hf : ∀ a, Le (f a) (g a)) :
    Le (x >>= f) (y >>= g) := by
  intro r h
  match x with
  | none => cases h
  | some (.error e) =>
    rw [bind_of_error (hx _ rfl)]
    exact h
  | some (.ok a) =>
    rw [bind_of_ok (hx _ rfl)]
    exact hf a r h

theorem mono_bind (hx : Mono x) (hf : ∀ a, Mono (f a)) : Mono fun n => x n >>= fun a => f a n :=
  fun n n' hn => le_bind (hx n n' hn) fun a => hf a n n' hn

theorem settles_bind (hx : Settles x (.ok a)) {r : Except ε β} (hf : Settles (f a) r) :
    Settles (fun n => x n >>= fun a => f a n) r := by
  obtain ⟨n, hn⟩ := hx
  obtain ⟨n', hn'⟩ := hf
  refine ⟨max n n', fun m hm => ?_⟩
  beta_reduce
  rw [bind_of_ok (hn m (Nat.le_trans (Nat.le_max_left _ _) hm))]
  exact hn' m (Nat.le_trans (Nat.le_max_right _ _) hm)

theorem settles_bind_error (hx : Settles x (.error e)) : Settles (fun n => x n >>= fun a => f a n) (.error e) := by
  obtain ⟨n, hn⟩ := hx
  exact ⟨n, fun m hm => bind_of_error (hn m hm)⟩

theorem never_bind (hx : Mono x) (hf : ∀ a, Mono (f a)) :
    (Never fun n => x n >>= fun a => f a n) ↔ Never x ∨ ∃ a, Settles x (.ok a) ∧ Never (f a) := by
  constructor
  · intro h
    rcases never_or_settles hx with hx' | ⟨r, hr⟩
    · exact .inl hx'
    · cases r with
      | error e => exact absurd h (settles_bind_error hr).not_never
      | ok a =>
        rcases never_or_settles (hf a) with hf' | ⟨r, hr'⟩
        · exact .inr ⟨a, hr, hf'⟩
        · exact absurd h (settles_bind hr hr').not_never
  · rintro (h | ⟨a, ha, h⟩) n
    · exact bind_of_none (h n)
    · match hn : x n with
      | none => exact bind_of_none hn
      | some s =>
        cases ha.eq_of_some hx hn
        exact (bind_of_ok hn).trans (h n)

theorem settles_bind_ok (hx : Mono x) (hf : ∀ a, Mono (f a)) :
    Settles (fun n => x n >>= fun a => f a n) (.ok b) ↔ ∃ a, Settles x (.ok a) ∧ Settles (f a) (.ok b) := by
  constructor
  · intro h
    rcases never_or_settles hx with hx' | ⟨r, hr⟩
    · exact absurd ((never_bind hx hf).mpr (.inl hx')) h.not_never
    · cases r with
      | error e => cases h.unique (settles_bind_error hr)
      | ok a =>
        rcases never_or_settles (hf a) with hf' | ⟨r, hr'⟩
        · exact absurd ((never_bind hx hf).mpr (.inr ⟨a, hr, hf'⟩)) h.not_never
        · exact ⟨a, hr, h.unique (settles_bind hr hr') ▸ hr'⟩
  · rintro ⟨a, ha, hb⟩
    exact settles_bind ha hb

/-! ## Along a list -/

variable {g : α → Nat → Result ε (List β)} {l : List α} {m : List β}

theorem le_flatMapM {f g : α → Result ε (List β)} (h : ∀ a ∈ l, Le (f a) (g a)) : Le (l.flatMapM f) (l.flatMapM g) := by
  induction l with
  | nil => exact fun r h => h
  | cons a l ih =>
    simp only [List.flatMapM_cons]
    exact le_bind (h a List.mem_cons_self) fun m =>
      le_bind (ih fun a' ha' => h a' (List.mem_cons_of_mem a ha')) fun m' _ h => h

theorem mono_flatMapM (hg : ∀ a ∈ l, Mono (g a)) : Mono fun n => l.flatMapM fun a => g a n :=
  fun n n' hn => le_flatMapM fun a ha => hg a ha n n' hn

theorem mono_append {x : Nat → Result ε (List β)} (hx : Mono x) (m : List β) : Mono fun n => x n >>= fun m' => pure (m ++ m') :=
  mono_bind hx fun m' => mono_pure (.ok (m ++ m'))

theorem flatMapM_ok {f : α → Result ε (List β)} (h : l.flatMapM f = some (.ok m)) :
    ∃ ms, List.Forall₂ (fun a m => f a = some (.ok m)) l ms ∧ m = ms.flatten := by
  induction l generalizing m with
  | nil =>
    cases h
    exact ⟨[], .nil, rfl⟩
  | cons a l ih =>
    rw [List.flatMapM_cons] at h
    obtain ⟨m₁, h₁, h⟩ := bind_ok h
    obtain ⟨m₂, h₂, h⟩ := bind_ok h
    cases h
    obtain ⟨ms, hms, rfl⟩ := ih h₂
    exact ⟨m₁ :: ms, .cons h₁ hms, rfl⟩

theorem flatMapM_error {f : α → Result ε (List β)} (h : l.flatMapM f = some (.error e)) : ∃ a ∈ l, f a = some (.error e) := by
  induction l with
  | nil => cases h
  | cons a l ih =>
    rw [List.flatMapM_cons] at h
    rcases bind_error h with h | ⟨m₁, _, h⟩
    · exact ⟨a, List.mem_cons_self, h⟩
    · rcases bind_error h with h | ⟨m₂, _, h⟩
      · obtain ⟨a', ha', h⟩ := ih h
        exact ⟨a', List.mem_cons_of_mem a ha', h⟩
      · cases h

theorem flatMapM_none {f : α → Result ε (List β)} {l' : List α} (hl : ∀ a ∈ l, ∀ e, f a ≠ some (.error e)) (ha : f a = none) :
    (l ++ a :: l').flatMapM f = none := by
  induction l with
  | nil =>
    rw [List.nil_append, List.flatMapM_cons]
    exact bind_of_none ha
  | cons a' l ih =>
    rw [List.cons_append, List.flatMapM_cons]
    match ha' : f a' with
    | none => exact bind_of_none rfl
    | some (.error e) => exact absurd ha' (hl a' List.mem_cons_self e)
    | some (.ok m) =>
      rw [bind_of_ok rfl]
      exact bind_of_none (ih fun a'' ha'' => hl a'' (List.mem_cons_of_mem a' ha''))

theorem settles_flatMapM (hg : ∀ a ∈ l, Mono (g a)) : Settles (fun n => l.flatMapM fun a => g a n) (.ok m) ↔
    ∃ ms, List.Forall₂ (fun a m => Settles (g a) (.ok m)) l ms ∧ m = ms.flatten := by
  induction l generalizing m with
  | nil =>
    refine (settles_pure_iff (r := .ok [])).trans ?_
    constructor
    · intro h
      cases h
      exact ⟨[], .nil, rfl⟩
    · rintro ⟨ms, hms, rfl⟩
      cases hms
      rfl
  | cons a l ih =>
    have hl : ∀ a' ∈ l, Mono (g a') := fun a' ha' => hg a' (List.mem_cons_of_mem a ha')
    simp only [List.flatMapM_cons]
    rw [settles_bind_ok (hg a List.mem_cons_self) (mono_append (mono_flatMapM hl))]
    constructor
    · rintro ⟨m₁, h₁, h⟩
      obtain ⟨m₂, h₂, h⟩ := (settles_bind_ok (mono_flatMapM hl) fun m' => mono_pure (.ok (m₁ ++ m'))).mp h
      obtain ⟨ms, hms, rfl⟩ := (ih hl).mp h₂
      cases settles_pure_iff.mp h
      exact ⟨m₁ :: ms, .cons h₁ hms, rfl⟩
    · rintro ⟨ms, hms, rfl⟩
      obtain _ | ⟨h₁, hms⟩ := hms
      exact ⟨_, h₁, settles_bind ((ih hl).mpr ⟨_, hms, rfl⟩) (settles_pure (r := .ok _))⟩

theorem never_flatMapM (hg : ∀ a ∈ l, Mono (g a)) : (Never fun n => l.flatMapM fun a => g a n) ↔
    ∃ l₁ a l₂, l = l₁ ++ a :: l₂ ∧ (∀ a' ∈ l₁, ∃ m, Settles (g a') (.ok m)) ∧ Never (g a) := by
  induction l with
  | nil =>
    refine iff_of_false (not_never_pure (r := .ok [])) ?_
    rintro ⟨l₁, a, l₂, h, _⟩
    cases l₁ <;> cases h
  | cons a l ih =>
    have hl : ∀ a' ∈ l, Mono (g a') := fun a' ha' => hg a' (List.mem_cons_of_mem a ha')
    simp only [List.flatMapM_cons]
    rw [never_bind (hg a List.mem_cons_self) (mono_append (mono_flatMapM hl))]
    constructor
    · rintro (h | ⟨m, hm, h⟩)
      · exact ⟨[], a, l, rfl, fun _ ha' => (List.not_mem_nil ha').elim, h⟩
      · rcases (never_bind (mono_flatMapM hl) fun m' => mono_pure (.ok (m ++ m'))).mp h with h | ⟨_, _, h⟩
        · obtain ⟨l₁, a', l₂, rfl, hall, h⟩ := (ih hl).mp h
          refine ⟨a :: l₁, a', l₂, rfl, fun a'' ha'' => ?_, h⟩
          rcases List.mem_cons.mp ha'' with rfl | ha''
          · exact ⟨m, hm⟩
          · exact hall a'' ha''
        · exact absurd h not_never_pure
    · rintro ⟨l₁, a', l₂, heq, hall, h⟩
      cases l₁ with
      | nil =>
        cases heq
        exact .inl h
      | cons a₁ l₁ =>
        cases heq
        obtain ⟨m, hm⟩ := hall a List.mem_cons_self
        refine .inr ⟨m, hm, (never_bind (mono_flatMapM hl) fun m' => mono_pure (.ok (m ++ m'))).mpr (.inl ?_)⟩
        exact (ih hl).mpr ⟨l₁, a', l₂, rfl, fun a'' ha'' => hall a'' (List.mem_cons_of_mem a ha''), h⟩

end Fuel
