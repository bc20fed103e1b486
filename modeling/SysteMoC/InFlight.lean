import SysteMoC.DataflowConfluent
import SysteMoC.NetworkDataflow

/-!
# Networks under a coupled simulator

A simulator that is coupled to the library schedules the actors in its own order. It
starts the commits of a firing and finishes each of them when its time has come.
-/

namespace SysteMoC

open FifoChan (Uses Embodies)

/-- A commit that has been started: its `commFinish` is called on the source or the sink of a channel. -/
inductive Commit (K : Type) where
  | source (k : K) (n : Nat)
  | sink (k : K) (n : Nat)
deriving DecidableEq

namespace Commit

variable {K D : Type}

def chan : Commit K → K
  | source k _ => k
  | sink k _ => k

def commFinish : Commit K → FifoOp D
  | source _ n => .outletFinish n
  | sink _ n => .entryFinish n false

theorem kept_commFinish (c : Commit K) : (c.commFinish : FifoOp D).Kept := by
  cases c with
  | source => exact trivial
  | sink => rfl

theorem commFinish_ne (c : Commit K) {n : Nat} : (c.commFinish : FifoOp D) ≠ .outletStart n := by
  cases c with
  | source | sink => rintro ⟨⟩

variable [DecidableEq K]

def placesAt (k : K) : Commit K → Nat
  | source k' n => if k' = k then n else 0
  | sink _ _ => 0

def tokensAt (k : K) : Commit K → Nat
  | source _ _ => 0
  | sink k' n => if k' = k then n else 0

end Commit

namespace Task

variable {A K Z D : Type}

def starts : Task A K Z D → List (Commit K)
  | op k (.outletStart n) => [.source k n]
  | op k (.entryStart n) => [.sink k n]
  | _ => []

theorem length_starts_le (task : Task A K Z D) : task.starts.length ≤ 1 := by
  cases task with
  | op k o =>
    cases o with
    | outletStart | entryStart => exact Nat.le_refl 1
    | write | entryFinish | outletFinish | doReset => exact Nat.zero_le 1
  | copy | produce | reset => exact Nat.zero_le 1

/-- Tasks of a firing whose commits are finished by others. -/
def Opens : Task A K Z D → Prop
  | op _ (.write _ _ _) | op _ (.outletStart _) | op _ (.entryStart _) | copy _ _ _ => True
  | _ => False

end Task

/-! ## Finishing a commit -/

namespace AbsQueue

variable {T : Type} {n : Nat} {a : AbsQueue T} {o : FifoOp T} {ts : List T}

/-- Operations that do not finish commits. -/
def Opening : FifoOp T → Prop
  | .write _ _ _ | .outletStart _ | .entryStart _ => True
  | _ => False

/-- Finishing the commit at once is the same as finishing it later. -/
structure Unhindered (n : Nat) (ts : List T) (f o : FifoOp T) (a : AbsQueue T) : Prop where
  within : (a.step ts f).Within n o
  placed : a.Placed o → (a.step ts f).Placed o
  later : (a.step ts o).Within n f
  comm : (a.step ts f).step ts o = (a.step ts o).step ts f

theorem unhindered_source {j : Nat} (ho : Opening o) (hw : a.Within n o) (hf : a.Within n (.outletFinish j)) :
    Unhindered n ts (.outletFinish j) o a := by
  have hf : j ≤ a.consumed.length := hf
  cases o with
  | write limit i t =>
    have hw : i < limit ∧ i < a.room n := hw
    refine ⟨⟨hw.1, Nat.lt_of_lt_of_le hw.2 ?_⟩, id, hf, rfl⟩
    simp only [room, step, List.length_drop]
    omega
  | outletStart k =>
    have hw : k ≤ a.visible.length := hw
    refine ⟨hw, id, ?_, ?_⟩
    · simp only [Within, step, List.length_append]
      omega
    · simp only [step, List.drop_append_of_le_length hf, List.take_append_of_le_length hf]
  | entryStart k =>
    have hw : k ≤ a.room n := hw
    refine ⟨Nat.le_trans hw ?_, id, hf, rfl⟩
    simp only [room, step, List.length_drop]
    omega
  | entryFinish | outletFinish | doReset => exact ho.elim

theorem unhindered_sink {j : Nat} (ho : Opening o) (hw : a.Within n o) (hf : a.Within n (.entryFinish j false)) :
    Unhindered n ts (.entryFinish j false) o a := by
  have hf : j ≤ a.pipeline.length := hf
  have hroom : (a.step ts (.entryFinish j false)).room n = a.room n := by
    simp only [room, step, Bool.false_eq_true, if_false, List.length_append, List.length_take_of_le hf, List.length_drop]
    omega
  cases o with
  | write limit i t =>
    have hw : i < limit ∧ i < a.room n := hw
    exact ⟨⟨hw.1, Nat.lt_of_lt_of_eq hw.2 hroom.symm⟩, id, hf, rfl⟩
  | outletStart k =>
    have hw : k ≤ a.visible.length := hw
    refine ⟨?_, id, hf, ?_⟩
    · simp only [Within, step, Bool.false_eq_true, if_false, List.length_append]
      omega
    · simp only [step, Bool.false_eq_true, if_false, List.drop_append_of_le_length hw, List.take_append_of_le_length hw]
  | entryStart k =>
    have hw : k ≤ a.room n := hw
    refine ⟨Nat.le_trans hw (Nat.le_of_eq hroom.symm), id, ?_, ?_⟩
    · simp only [Within, step, List.length_append]
      omega
    · simp only [step, stagedPrefix, Bool.false_eq_true, if_false, List.drop_append_of_le_length hf,
        List.take_append_of_le_length hf]
  | entryFinish | outletFinish | doReset => exact ho.elim

end AbsQueue

section
variable {A K Z D : Type} {depth : K → Nat} {initial : K → List D} {todo : List (Task A K Z D)} {task : Task A K Z D}
  {aq aq' : K → Option (AbsQueue D)} {a : AbsQueue D} {c : Commit K}

theorem Commit.unhindered {n : Nat} {ts : List D} {o : FifoOp D} (ho : AbsQueue.Opening o) (hw : a.Within n o)
    (hf : a.Within n c.commFinish) : AbsQueue.Unhindered n ts c.commFinish o a := by
  cases c with
  | source k j => exact AbsQueue.unhindered_source ho hw hf
  | sink k j => exact AbsQueue.unhindered_sink ho hw hf

theorem Commit.room_le {n : Nat} {ts : List D} (hf : a.Within n c.commFinish) : a.room n ≤ (a.step ts c.commFinish).room n := by
  cases c with
  | source k j =>
    have hf : j ≤ a.consumed.length := hf
    simp only [Commit.commFinish, AbsQueue.room, AbsQueue.step, List.length_drop]
    omega
  | sink k j =>
    have hf : j ≤ a.pipeline.length := hf
    simp only [Commit.commFinish, AbsQueue.room, AbsQueue.step, Bool.false_eq_true, if_false, List.length_append,
      List.length_take_of_le hf, List.length_drop]
    omega

theorem Commit.staged_step {ts : List D} : (a.step ts c.commFinish).staged = a.staged := by
  cases c with
  | source | sink => rfl

theorem Commit.step_staged {ts : List D} {f : Nat → Option D} :
    ({ a with staged := f } : AbsQueue D).step ts c.commFinish = { a.step ts c.commFinish with staged := f } := by
  cases c with
  | source | sink => rfl

theorem Commit.within_staged {n : Nat} {f : Nat → Option D} (h : a.Within n c.commFinish) :
    ({ a with staged := f } : AbsQueue D).Within n c.commFinish := by
  cases c with
  | source | sink => exact h

/-- What finishing needs of the queues. -/
def Commit.Due (c : Commit K) (depth : K → Nat) (aq : K → Option (AbsQueue D)) : Prop :=
  ∃ a ∈ aq c.chan, a.Within (depth c.chan) c.commFinish

variable [DecidableEq K]

/-- The queues when it is finished. -/
def Commit.finish (c : Commit K) (initial : K → List D) (aq : K → Option (AbsQueue D)) : K → Option (AbsQueue D) :=
  Function.update aq c.chan ((aq c.chan).map fun a => a.step (initial c.chan) c.commFinish)

theorem Commit.Due.get (initial : K → List D) (hc : c.Due depth aq) {k : K} (hk : aq k = some a) :
    ∃ a' ∈ c.finish initial aq k, a.room (depth k) ≤ a'.room (depth k) ∧ a'.staged = a.staged := by
  obtain ⟨q, hq, hf⟩ := hc
  by_cases h : k = c.chan
  · subst h
    cases Option.some.inj (hk.symm.trans hq)
    refine ⟨a.step (initial c.chan) c.commFinish, ?_, Commit.room_le hf, Commit.staged_step⟩
    rw [Commit.finish, Function.update_self, hk]
    rfl
  · refine ⟨a, ?_, Nat.le_refl _, rfl⟩
    rw [Commit.finish, Function.update_of_ne h]
    exact hk

/-- A task and the end of a commit that was started before it can be done in either order. -/
theorem Commit.Due.comm (initial : K → List D) (hc : c.Due depth aq) (ho : task.Opens) (ht : task.Fits depth aq) :
    task.Fits depth (c.finish initial aq) ∧ c.Due depth (task.run initial aq) ∧
      task.run initial (c.finish initial aq) = c.finish initial (task.run initial aq) := by
  obtain ⟨a, ha, hf⟩ := hc
  cases task with
  | op k o =>
    have hopening : AbsQueue.Opening o := by
      cases o with
      | write | outletStart | entryStart => exact trivial
      | entryFinish | outletFinish | doReset => exact ho
    obtain ⟨hkept, q, hq, hw, hp⟩ := ht
    by_cases hk : k = c.chan
    · subst hk
      cases Option.some.inj (ha.symm.trans hq)
      have hun : AbsQueue.Unhindered (depth c.chan) (initial c.chan) c.commFinish o a := Commit.unhindered hopening hw hf
      refine ⟨⟨hkept, a.step (initial c.chan) c.commFinish, ?_, hun.within, hun.placed hp⟩,
        ⟨a.step (initial c.chan) o, ?_, hun.later⟩, ?_⟩
      · rw [Commit.finish, Function.update_self, Option.mem_def.mp ha]
        rfl
      · rw [Task.run, Function.update_self, Option.mem_def.mp ha]
        rfl
      · simp only [Task.run, Commit.finish, Function.update_self, Function.update_idem, Option.mem_def.mp ha, Option.map_some,
          hun.comm]
    · refine ⟨⟨hkept, q, ?_, hw, hp⟩, ⟨a, ?_, hf⟩, ?_⟩
      · rw [Commit.finish, Function.update_of_ne hk]
        exact hq
      · rw [Task.run, Function.update_of_ne (Ne.symm hk)]
        exact ha
      · simp only [Task.run, Commit.finish, Function.update_of_ne hk, Function.update_of_ne (Ne.symm hk)]
        exact Function.update_comm (Ne.symm hk) _ _ _
  | copy k k' n =>
    obtain ⟨hne, q, hq, q', hq', hroom, hroom', hp⟩ := ht
    have hdue : c.Due depth aq := ⟨a, ha, hf⟩
    obtain ⟨q₁, hq₁, hle, hstaged⟩ := hdue.get initial hq
    obtain ⟨q₁', hq₁', hle', hstaged'⟩ := hdue.get initial hq'
    refine ⟨⟨hne, q₁, hq₁, q₁', hq₁', Nat.le_trans hroom hle, Nat.le_trans hroom' hle', fun i hi => ?_⟩, ?_, ?_⟩
    · rw [hstaged]
      exact hp i hi
    · rw [Task.run]
      by_cases hk : c.chan = k'
      · refine ⟨_, by rw [hk, Function.update_self, Option.mem_def.mp hq']; rfl, ?_⟩
        rw [hk] at ha hf ⊢
        cases Option.some.inj (ha.symm.trans hq')
        exact Commit.within_staged hf
      · refine ⟨a, ?_, hf⟩
        rw [Function.update_of_ne hk]
        exact ha
    · simp only [Task.run, Option.mem_def.mp hq, Option.mem_def.mp hq', Option.mem_def.mp hq₁, Option.mem_def.mp hq₁',
        Option.bind_some, Option.map_some, hstaged, hstaged']
      simp only [Commit.finish]
      by_cases hk : c.chan = k'
      · have hq₁' := Option.mem_def.mp hq₁'
        rw [Commit.finish, hk, Function.update_self, Option.mem_def.mp hq', Option.map_some, Option.some.injEq] at hq₁'
        rw [hk, Function.update_self, Function.update_idem, Function.update_idem, Option.map_some, Commit.step_staged, hq₁']
      · have hq₁' := Option.mem_def.mp hq₁'
        rw [Commit.finish, Function.update_of_ne (Ne.symm hk), Option.mem_def.mp hq', Option.some.injEq] at hq₁'
        rw [Function.update_of_ne hk, hq₁']
        exact Function.update_comm hk _ _ _
  | produce | reset => exact ho.elim

theorem Commit.Due.performs (hc : c.Due depth aq) (h : Performs depth initial todo aq aq') (ho : ∀ task ∈ todo, task.Opens) :
    c.Due depth aq' ∧ Performs depth initial todo (c.finish initial aq) (c.finish initial aq') := by
  induction h with
  | nil => exact ⟨hc, .nil _⟩
  | @cons task todo aq aq' ht _ ih =>
    obtain ⟨hfits, hdue, hcomm⟩ := hc.comm initial (ho task List.mem_cons_self) ht
    obtain ⟨hdue', hrest⟩ := ih hdue fun task' hmem => ho task' (List.mem_cons_of_mem _ hmem)
    rw [← hcomm] at hrest
    exact ⟨hdue', .cons hfits hrest⟩

/-! ## Commits in flight -/

/-- The commits that have been started are those that the queues have yet to finish. -/
structure Accounts (started : List (Commit K)) (aq : K → Option (AbsQueue D)) : Prop where
  consumed : ∀ k, ∀ a ∈ aq k, a.consumed.length = (started.map (Commit.placesAt k)).sum
  pipeline : ∀ k, ∀ a ∈ aq k, a.pipeline.length = (started.map (Commit.tokensAt k)).sum
  isSome : ∀ c ∈ started, (aq c.chan).isSome

variable {started started' : List (Commit K)} {k : K} {a' : AbsQueue D}

theorem Commit.sum_erase (f : Commit K → Nat) (h : c ∈ started) :
    f c + ((started.erase c).map f).sum = (started.map f).sum := by
  rw [((List.perm_cons_erase h).map f).sum_eq, List.map_cons, List.sum_cons]

theorem Accounts.due (depth : K → Nat) (h : Accounts started aq) (hc : c ∈ started) : c.Due depth aq := by
  obtain ⟨a, ha⟩ := Option.isSome_iff_exists.mp (h.isSome c hc)
  refine ⟨a, ha, ?_⟩
  cases c with
  | source k n =>
    have hsum := Commit.sum_erase (Commit.placesAt k) hc
    have hlen := h.consumed k a ha
    simp only [Commit.placesAt, if_true] at hsum
    simp only [Commit.commFinish, AbsQueue.Within]
    omega
  | sink k n =>
    have hsum := Commit.sum_erase (Commit.tokensAt k) hc
    have hlen := h.pipeline k a ha
    simp only [Commit.tokensAt, if_true] at hsum
    simp only [Commit.commFinish, AbsQueue.Within]
    omega

theorem Accounts.update (h : Accounts started aq) (hconsumed : a'.consumed.length = (started'.map (Commit.placesAt k)).sum)
    (hpipeline : a'.pipeline.length = (started'.map (Commit.tokensAt k)).sum)
    (hplaces : ∀ k' ≠ k, (started'.map (Commit.placesAt k')).sum = (started.map (Commit.placesAt k')).sum)
    (htokens : ∀ k' ≠ k, (started'.map (Commit.tokensAt k')).sum = (started.map (Commit.tokensAt k')).sum)
    (hmem : ∀ c ∈ started', c.chan ≠ k → c ∈ started) : Accounts started' (Function.update aq k (some a')) := by
  refine ⟨fun k' q hq => ?_, fun k' q hq => ?_, fun c hc => ?_⟩
  · by_cases hk : k' = k
    · subst hk
      rw [Function.update_self, Option.mem_some_iff] at hq
      rw [← hq, hconsumed]
    · rw [Function.update_of_ne hk] at hq
      rw [hplaces k' hk]
      exact h.consumed k' q hq
  · by_cases hk : k' = k
    · subst hk
      rw [Function.update_self, Option.mem_some_iff] at hq
      rw [← hq, hpipeline]
    · rw [Function.update_of_ne hk] at hq
      rw [htokens k' hk]
      exact h.pipeline k' q hq
  · by_cases hk : c.chan = k
    · rw [hk, Function.update_self]
      rfl
    · rw [Function.update_of_ne hk]
      exact h.isSome c (hmem c hc hk)

theorem Accounts.finish (h : Accounts started aq) (hc : c ∈ started) :
    Accounts (started.erase c) (c.finish initial aq) := by
  obtain ⟨a, ha, hf⟩ := h.due (fun _ => 0) hc
  have hplaces := fun k => Commit.sum_erase (Commit.placesAt k) hc
  have htokens := fun k => Commit.sum_erase (Commit.tokensAt k) hc
  have hconsumed := h.consumed c.chan a ha
  have hpipeline := h.pipeline c.chan a ha
  rw [Commit.finish, Option.mem_def.mp ha, Option.map_some]
  cases c with
  | source k n =>
    have hf : n ≤ a.consumed.length := hf
    simp only [Commit.chan, Commit.placesAt, Commit.tokensAt] at hplaces htokens hconsumed hpipeline ⊢
    refine h.update ?_ ?_ (fun k' hk => ?_) (fun k' _ => ?_) fun c hc _ => List.mem_of_mem_erase hc
    · have := hplaces k
      simp only [Commit.commFinish, AbsQueue.step, List.length_drop, if_true] at this ⊢
      omega
    · have := htokens k
      simp only [Commit.commFinish, AbsQueue.step]
      omega
    · have := hplaces k'
      rw [if_neg (Ne.symm hk)] at this
      omega
    · have := htokens k'
      omega
  | sink k n =>
    have hf : n ≤ a.pipeline.length := hf
    simp only [Commit.chan, Commit.placesAt, Commit.tokensAt] at hplaces htokens hconsumed hpipeline ⊢
    refine h.update ?_ ?_ (fun k' _ => ?_) (fun k' hk => ?_) fun c hc _ => List.mem_of_mem_erase hc
    · have := hplaces k
      simp only [Commit.commFinish, AbsQueue.step]
      omega
    · have := htokens k
      simp only [Commit.commFinish, AbsQueue.step, List.length_drop, if_true] at this ⊢
      omega
    · have := hplaces k'
      omega
    · have := htokens k'
      rw [if_neg (Ne.symm hk)] at this
      omega

theorem Accounts.op {o : FifoOp D} {ts : List D} {d : Nat} (h : Accounts started aq) (ha : a ∈ aq k) (ho : AbsQueue.Opening o)
    (hw : a.Within d o) (hp : a.Placed o) :
    Accounts ((Task.op k o : Task A K Z D).starts ++ started) (Function.update aq k (some (a.step ts o))) := by
  have hconsumed := h.consumed k a ha
  have hpipeline := h.pipeline k a ha
  cases o with
  | write limit i t => exact h.update hconsumed hpipeline (fun _ _ => rfl) (fun _ _ => rfl) fun _ hc _ => hc
  | outletStart n =>
    have hw : n ≤ a.visible.length := hw
    refine h.update ?_ ?_ (fun k' hk => ?_) (fun k' hk => ?_) fun c hc hk => ?_
    · simp only [Task.starts, List.singleton_append, List.map_cons, List.sum_cons, Commit.placesAt, if_true, AbsQueue.step,
        List.length_append, List.length_take_of_le hw, hconsumed, Nat.add_comm]
    · simp [Task.starts, Commit.tokensAt, AbsQueue.step, hpipeline]
    · simp [Task.starts, Commit.placesAt, Ne.symm hk]
    · simp [Task.starts, Commit.tokensAt]
    · rcases List.mem_cons.mp hc with rfl | hc
      · exact absurd rfl hk
      · exact hc
  | entryStart n =>
    have hlen : (a.stagedPrefix n).length = n := Pick.length_tabulate hp
    refine h.update ?_ ?_ (fun k' hk => ?_) (fun k' hk => ?_) fun c hc hk => ?_
    · simp [Task.starts, Commit.placesAt, AbsQueue.step, hconsumed]
    · simp only [Task.starts, List.singleton_append, List.map_cons, List.sum_cons, Commit.tokensAt, if_true, AbsQueue.step,
        List.length_append, hlen, hpipeline, Nat.add_comm]
    · simp [Task.starts, Commit.placesAt]
    · simp [Task.starts, Commit.tokensAt, Ne.symm hk]
    · rcases List.mem_cons.mp hc with rfl | hc
      · exact absurd rfl hk
      · exact hc
  | entryFinish | outletFinish | doReset => exact ho.elim

theorem Accounts.copy {f : Nat → Option D} (h : Accounts started aq) (ha : a ∈ aq k) :
    Accounts started (Function.update aq k (some { a with staged := f })) :=
  h.update (h.consumed k a ha) (h.pipeline k a ha) (fun _ _ => rfl) (fun _ _ => rfl) fun _ hc _ => hc

theorem Accounts.calm {l : K → Option (List D)} {p n : K → Nat} (h : Accounts [] aq) (hl : AllLoose l n p (fun _ _ => none) aq) :
    AllCalm l aq := by
  intro k
  have hk := hl k
  have hconsumed := h.consumed k
  have hpipeline := h.pipeline k
  generalize l k = q at hk ⊢
  generalize aq k = q' at hk hconsumed hpipeline ⊢
  cases hk with
  | none => exact .none
  | some hk => exact .some ⟨hk.tokens, hconsumed _ rfl, hpipeline _ rfl, hk.staged⟩

/-- Finishing a commit takes no token away. -/
theorem AllLoose.finish (initial : K → List D) {l : K → Option (List D)} {p n : K → Nat} {staged : K → Nat → Option D}
    (h : AllLoose l n p staged aq) (hc : c.Due depth aq) : ∃ n' p', AllLoose l n' p' staged (c.finish initial aq) := by
  obtain ⟨a, ha, hf⟩ := hc
  have hk := h c.chan
  rw [Option.mem_def.mp ha] at hk
  generalize hl : l c.chan = q at hk
  cases hk with
  | @some l₀ _ hk =>
    have htokens : (a.step (initial c.chan) c.commFinish).visible ++ (a.step (initial c.chan) c.commFinish).pipeline = l₀ := by
      rw [← hk.tokens]
      cases c with
      | source => rfl
      | sink k n => simp [Commit.commFinish, AbsQueue.step, List.append_assoc]
    have hnext := h.update (k := c.chan) ⟨htokens, rfl, rfl, Commit.staged_step.trans hk.staged⟩
    rw [← hl, Function.update_eq_self, Function.update_eq_self] at hnext
    rw [Commit.finish, Option.mem_def.mp ha, Option.map_some]
    exact ⟨_, _, hnext⟩

end

end SysteMoC
