import SysteMoC.Storage

/-!
# Registers

A register keeps one value, which all its entries write and all its outlets read
without any commit. The initial token is known to the constructor only.
-/

namespace SysteMoC

/-- `actualValue` is `none` while it is invalid. -/
structure RegisterChan (T : Type) where
  actualValue : Option T

namespace RegisterChan

variable {T : Type}

/-- The constructor, for the tokens of the initializer. -/
def new (b : Build) (marking : List T) : Option (RegisterChan T) := do
  b.assert (marking.length ≤ 1)
  return { actualValue := marking.head? }

def get [Token T] (ch : RegisterChan T) : Option (T × RegisterChan T) :=
  match ch.actualValue with
  | some t => some (t, ch)
  | none => (Token.defaultToken (T := T)).map fun t => (t, { actualValue := some t })

def doReset (_ : RegisterChan T) : RegisterChan T := { actualValue := none }

def start_of_simulation (ch : RegisterChan T) : RegisterChan T := ch.doReset

end RegisterChan

namespace RegisterEntry

variable {T : Type}

def numFree (_ : RegisterChan T) : Nat := 1

def write (b : Build) (_ : RegisterChan T) (n : Nat) (t : T) : Option (RegisterChan T) := do
  b.assert (n = 0)
  return { actualValue := some t }

def commStart (ch : RegisterChan T) (_produce : Nat) : RegisterChan T := ch

def commFinish (b : Build) (ch : RegisterChan T) (_produce : Nat) (dropped : Bool) : Option (RegisterChan T) := do
  b.assert (dropped = false)
  return ch

end RegisterEntry

namespace RegisterOutlet

variable {T : Type}

def numAvailable (_ : RegisterChan T) : Nat := 1

def read [Token T] (b : Build) (ch : RegisterChan T) (n : Nat) : Option (T × RegisterChan T) := do
  b.assert (n = 0)
  ch.get

def commStart (ch : RegisterChan T) (_consume : Nat) : RegisterChan T := ch

def commFinish (b : Build) (ch : RegisterChan T) (_consume : Nat) (dropped : Bool) : Option (RegisterChan T) := do
  b.assert (dropped = false)
  return ch

end RegisterOutlet

inductive RegisterOp (E O T : Type) where
  | write (entry : E) (n : Nat) (t : T)
  | entryStart (entry : E) (k : Nat)
  | entryFinish (entry : E) (k : Nat) (dropped : Bool)
  | read (outlet : O) (n : Nat)
  | outletStart (outlet : O) (k : Nat)
  | outletFinish (outlet : O) (k : Nat) (dropped : Bool)
  | doReset

namespace RegisterChan

variable {E O T : Type}

def step [Token T] (b : Build) (ch : RegisterChan T) : RegisterOp E O T → Option (RegisterChan T)
  | .write _ n t => RegisterEntry.write b ch n t
  | .entryStart _ k => some (RegisterEntry.commStart ch k)
  | .entryFinish _ k dropped => RegisterEntry.commFinish b ch k dropped
  | .read _ n => (RegisterOutlet.read b ch n).map Prod.snd
  | .outletStart _ k => some (RegisterOutlet.commStart ch k)
  | .outletFinish _ k dropped => RegisterOutlet.commFinish b ch k dropped
  | .doReset => some ch.doReset

def run [Token T] (b : Build) (marking : List T) (ops : List (RegisterOp E O T)) : Option (RegisterChan T) := do
  let ch ← new b marking
  ops.foldlM (step b) ch.start_of_simulation

/-! ## The last value written -/

/-- The value written last since the last reset, after one more operation. -/
def written (last : Option T) : RegisterOp E O T → Option T
  | .write _ _ t => some t
  | .doReset => none
  | _ => last

variable [Token T] {b : Build} {ch ch' : RegisterChan T} {last : Option T} {op : RegisterOp E O T}

/-- The register holds the last value; without one it is invalid or default constructed. -/
def Keeps (ch : RegisterChan T) (last : Option T) : Prop :=
  ch.actualValue = last ∨ last = none ∧ ch.actualValue = Token.defaultToken

theorem Keeps.get (h : Keeps ch last) {t : T} (hg : ch.get = some (t, ch')) : Keeps ch' last := by
  unfold RegisterChan.get at hg
  split at hg
  · cases hg
    exact h
  · rename_i hnone
    obtain ⟨d, hd, heq⟩ := Option.map_eq_some_iff.mp hg
    cases heq
    obtain hlast | ⟨hlast, _⟩ := h
    · exact .inr ⟨hlast.symm.trans hnone, hd.symm⟩
    · exact .inr ⟨hlast, hd.symm⟩

theorem Keeps.step (h : Keeps ch last) (hs : ch.step b op = some ch') : Keeps ch' (written last op) := by
  cases op with
  | write entry n t =>
    obtain ⟨_, _, heq⟩ := Option.bind_eq_some_iff.mp hs
    cases heq
    exact .inl rfl
  | entryStart | outletStart =>
    cases hs
    exact h
  | entryFinish | outletFinish =>
    obtain ⟨_, _, heq⟩ := Option.bind_eq_some_iff.mp hs
    cases heq
    exact h
  | read outlet n =>
    obtain ⟨⟨t, ch₁⟩, hread, heq⟩ := Option.map_eq_some_iff.mp hs
    cases heq
    obtain ⟨_, _, hget⟩ := Option.bind_eq_some_iff.mp hread
    exact h.get hget
  | doReset =>
    cases hs
    exact .inl rfl

theorem Keeps.run {ops : List (RegisterOp E O T)} (h : Keeps ch last) (hr : ops.foldlM (RegisterChan.step b) ch = some ch') :
    Keeps ch' (ops.foldl written last) := by
  induction ops generalizing ch last with
  | nil =>
    cases hr
    exact h
  | cons op ops ih =>
    rw [List.foldlM_cons] at hr
    obtain ⟨ch₁, hs, hr⟩ := Option.bind_eq_some_iff.mp hr
    exact ih (h.step hs) hr

/-- A read returns the last value written, or else the initial token, exactly when a value
was written since the last reset or the initial token is the default constructed one. -/
theorem read_last_written {initial : T} {ops : List (RegisterOp E O T)} (hrun : run b [initial] ops = some ch) :
    (∃ ch', RegisterOutlet.read b ch 0 = some ((ops.foldl written none).getD initial, ch')) ↔
      (ops.foldl written none).isSome ∨ Token.defaultToken = some initial := by
  obtain ⟨ch₀, _, hrun⟩ := Option.bind_eq_some_iff.mp hrun
  have h : Keeps ch (ops.foldl written none) := Keeps.run (.inl rfl) hrun
  have hread : RegisterOutlet.read b ch 0 = ch.get := by simp [RegisterOutlet.read, b.assert_of]
  rw [hread]
  generalize ops.foldl written none = last at h
  cases last with
  | some t =>
    obtain hval | ⟨hnone, _⟩ := h
    · simp [RegisterChan.get, hval]
    · cases hnone
  | none =>
    obtain hval | ⟨_, hval⟩ := h
    · simp [RegisterChan.get, hval]
    · cases hd : Token.defaultToken (T := T) with
      | none => simp [RegisterChan.get, hval, hd]
      | some d => simp [RegisterChan.get, hval, hd]

theorem read_last_written_two :
    ∃ ch ch' : RegisterChan Nat, RegisterOutlet.read .checked ch 0 = some (8, ch') ∧
      run .checked [5] ([.write 0 0 7, .outletFinish 1 1 false, .write 1 0 8] : List (RegisterOp Nat Nat Nat)) =
        some ch := by
  obtain ⟨ch, hrun⟩ : ∃ ch : RegisterChan Nat,
      run .checked [5] ([.write 0 0 7, .outletFinish 1 1 false, .write 1 0 8] : List (RegisterOp Nat Nat Nat)) =
        some ch := ⟨_, rfl⟩
  obtain ⟨ch', hread⟩ := (read_last_written hrun).mpr (.inl rfl)
  exact ⟨ch, ch', hread, hrun⟩

/-- The first read does not return the initial token. -/
theorem initial_token_lost :
    ∃ ch : RegisterChan Nat, run .checked [5] ([] : List (RegisterOp Nat Nat Nat)) = some ch ∧
      (RegisterOutlet.read .checked ch 0).map Prod.fst = some 0 := ⟨_, rfl, rfl⟩

end RegisterChan

end SysteMoC
