import SysteMoC.MultiplexRun

/-!
# Multiplex FIFOs: delivery to the virtual outlets

What the virtual entries commit and the virtual outlets obtain is logged along
runs. Of each colour, the tokens obtained and those still in the ring are the
tokens committed, in their order.
-/

namespace SysteMoC

open Cyclic Pick

/-- Tokens by colour, oldest first. -/
structure MultiplexLog (T : Type) where
  committed : Nat → List T
  obtained : Nat → List T

namespace MultiplexOp

variable {T : Type}

/-- Tokens come from virtual entries only. -/
def Virtual : MultiplexOp T → Prop
  | .write entry _ _ _ => entry.isSome
  | .entryStart entry _ => entry.isSome
  | _ => True

end MultiplexOp

namespace MultiplexFifoChan

variable {T ε : Type} [Token T] [ColorAccessor T] [SmocEvent ε] {b : Build} {n m : Nat}
  {ch ch' : MultiplexFifoChan T ε} {a : MultiplexQueue T} {log : MultiplexLog T}

/-- What an outlet reads through its access before it consumes `k` tokens. -/
def readings (b : Build) (ch : MultiplexFifoChan T ε) (fifoId k : Nat) : List T :=
  tabulate (fun i => (MultiplexVFifoOutlet.read b ch fifoId k i).map Prod.fst) k

def logged (b : Build) (ch : MultiplexFifoChan T ε) (a : MultiplexQueue T) (log : MultiplexLog T) :
    MultiplexOp T → MultiplexLog T
  | .entryStart (some fifoId) k => { log with
      committed := Function.update log.committed fifoId (log.committed fifoId ++ a.commits (some fifoId) k) }
  | .outletStart fifoId k => { log with
      obtained := Function.update log.obtained fifoId (log.obtained fifoId ++ readings b ch fifoId k) }
  | _ => log

def LoggedStep (b : Build) (s s' : MultiplexFifoChan T ε × MultiplexQueue T × MultiplexLog T) : Prop :=
  ∃ op : MultiplexOp T, op.Virtual ∧ s.1.Guarded op ∧ s.2.1.Placed op ∧ s.1.step b op = some s'.1 ∧
    s'.2 = (s.2.1.step op, logged b s.1 s.2.1 s.2.2 op)

/-- The tokens in the ring, read off its slots. -/
def contents (ch : MultiplexFifoChan T ε) : List T :=
  tabulate (fun i => ch.storage (add ch.fsize ch.rindex i)) ch.usedCount

/-! ## Reading -/

omit [SmocEvent ε] [Token T] [ColorAccessor T] in
theorem contents_eq (h : Simulates n m ch a) : ch.contents = a.visible ++ a.pipeline := by
  have hused : ch.usedCount = (a.visible ++ a.pipeline).length := by
    rw [h.carries.areas.usedCount_eq, List.length_append]
  have hsome : ∀ i < (a.visible ++ a.pipeline).length, (ch.storage (add ch.fsize ch.rindex i)).isSome := by
    intro i hi
    rw [h.carries.held i hi, List.getElem?_eq_getElem hi]
    rfl
  rw [contents, hused]
  apply List.ext_getElem?
  intro i
  by_cases hi : i < (a.visible ++ a.pipeline).length
  · rw [getElem?_tabulate hsome hi]
    exact h.carries.held i hi
  · rw [List.getElem?_eq_none (by rw [length_tabulate hsome]; omega), List.getElem?_eq_none (by omega)]

omit [SmocEvent ε] in
theorem read_eq {c limit k : Nat} {t : T} (h : Simulates n m ch a)
    (ht : (a.visible.filter (colorIs c))[k]? = some t) (hk : k < limit) :
    MultiplexVFifoOutlet.read b ch c limit k = some (t, ch) := by
  have hheld : Holds ch.fsize ch.storage ch.rindex a.visible := (holds_append.mp h.carries.held).1
  have hr := h.carries.areas.rindex_lt
  have hfits := h.carries.areas.fits
  have hfuel : ch.fsize ≤ (k + 1) * ch.fsize := Nat.le_mul_of_pos_left _ (Nat.succ_pos k)
  have hloop := readLoop_eq (c := c) hr hheld a.visible [] ((k + 1) * ch.fsize) k t rfl ht (by omega)
  rw [List.length_nil, add_zero hr] at hloop
  rw [MultiplexVFifoOutlet.read, b.debugAssert_of hk]
  simp only [Option.bind_eq_bind, Option.bind_some, hloop]
  rfl

omit [Token T] [SmocEvent ε] in
/-- The counter never promises a token that is not there. -/
theorem getElem?_of_available {c k : Nat} {o : VOutlet ε} (h : Accounted m ch a)
    (ho : ch.vOutlets.lookup c = some o) (hk : k < o.countAvailable) :
    ∃ t, (a.visible.filter (colorIs c))[k]? = some t := by
  have hcount : o.countAvailable = (a.visible.take (m + 1)).countP (colorIs c) :=
    h c _ (by rw [VOutletMap.avail, ho]; rfl)
  have hle : (a.visible.take (m + 1)).countP (colorIs c) ≤ a.visible.countP (colorIs c) :=
    (List.take_sublist (m + 1) a.visible).countP_le
  rw [List.countP_eq_length_filter (l := a.visible)] at hle
  exact ⟨_, List.getElem?_eq_getElem (show k < (a.visible.filter (colorIs c)).length by omega)⟩

omit [SmocEvent ε] in
theorem readings_eq {c k : Nat} {o : VOutlet ε} (h : Invariant n m ch a) (ho : ch.vOutlets.lookup c = some o)
    (hk : k ≤ o.countAvailable) : ch.readings b c k = (a.visible.filter (colorIs c)).take k := by
  have hread : ∀ i < k, (MultiplexVFifoOutlet.read b ch c k i).map Prod.fst = (a.visible.filter (colorIs c))[i]? := by
    intro i hi
    obtain ⟨t, ht⟩ := getElem?_of_available h.accounted ho (Nat.lt_of_lt_of_le hi hk)
    rw [read_eq h.simulates ht hi, ht]
    rfl
  have hsome : ∀ i < k, ((MultiplexVFifoOutlet.read b ch c k i).map Prod.fst).isSome := by
    intro i hi
    obtain ⟨t, ht⟩ := getElem?_of_available h.accounted ho (Nat.lt_of_lt_of_le hi hk)
    rw [hread i hi, ht]
    rfl
  apply List.ext_getElem?
  intro i
  by_cases hi : i < k
  · rw [readings, getElem?_tabulate hsome hi, hread i hi, List.getElem?_take_of_lt hi]
  · rw [List.getElem?_eq_none (by rw [readings, length_tabulate hsome]; omega),
      List.getElem?_eq_none (by rw [List.length_take]; omega)]

/-! ## Delivery -/

/-- Of each colour, what was committed is what was obtained and what is in the ring. -/
def Delivers (a : MultiplexQueue T) (log : MultiplexLog T) : Prop :=
  ∀ c, log.obtained c ++ (a.visible ++ a.pipeline).filter (colorIs c) = log.committed c

omit [Token T] in
theorem filter_commits {c k : Nat} (hlaw : ∀ (t : T) d, ColorAccessor.get (ColorAccessor.put t d) = d) (d : Nat) :
    (a.commits (some c) k).filter (colorIs d) = if d = c then a.commits (some c) k else [] := by
  have hcolor : ∀ t ∈ a.commits (some c) k, ColorAccessor.get t = c := by
    intro t ht
    obtain ⟨i, _, hi⟩ := List.mem_filterMap.mp ht
    obtain ⟨e, _, rfl⟩ := Option.map_eq_some_iff.mp hi
    exact hlaw _ _
  split
  · rw [List.filter_eq_self]
    intro t ht
    simp [colorIs, hcolor t ht, *]
  · rw [List.filter_eq_nil_iff]
    intro t ht
    simp [colorIs, hcolor t ht, Ne.symm, *]

omit [SmocEvent ε] in
theorem Delivers.step {op : MultiplexOp T} (hlaw : ∀ (t : T) d, ColorAccessor.get (ColorAccessor.put t d) = d)
    (h : Delivers a log) (hi : Invariant n m ch a) (hv : op.Virtual) (hg : ch.Guarded op) :
    Delivers (a.step op) (logged b ch a log op) := by
  intro d
  have hd := h d
  rw [List.filter_append] at hd
  cases op with
  | write | outletFinish => exact h d
  | entryStart entry k =>
    obtain ⟨c, rfl⟩ := Option.isSome_iff_exists.mp hv
    show log.obtained d ++ (a.visible ++ (a.pipeline ++ a.commits (some c) k)).filter (colorIs d) =
      Function.update log.committed c (log.committed c ++ a.commits (some c) k) d
    rw [List.filter_append, List.filter_append, ← List.append_assoc, ← List.append_assoc, filter_commits hlaw,
      List.append_assoc (log.obtained d), hd]
    by_cases hdc : d = c
    · subst hdc
      rw [if_pos rfl, Function.update_self]
    · rw [if_neg hdc, Function.update_of_ne hdc, List.append_nil]
  | entryFinish k =>
    show log.obtained d ++ (a.visible ++ a.pipeline.take k ++ a.pipeline.drop k).filter (colorIs d) = log.committed d
    rw [List.append_assoc, List.take_append_drop]
    exact h d
  | outletStart c k =>
    obtain ⟨o, ho, hk⟩ := hg
    show Function.update log.obtained c (log.obtained c ++ readings b ch c k) d ++
      (removeFirst (colorIs c) k a.visible ++ a.pipeline).filter (colorIs d) = log.committed d
    rw [List.filter_append]
    by_cases hdc : d = c
    · subst hdc
      rw [Function.update_self, readings_eq hi ho hk, filter_removeFirst, List.append_assoc, ← List.append_assoc,
        ← List.append_assoc, List.append_assoc (log.obtained d), List.take_append_drop, List.append_assoc]
      exact hd
    · rw [Function.update_of_ne hdc, filter_removeFirst_other (colorIs_other hdc)]
      exact hd

theorem LoggedStep.intro {l : MultiplexLog T} (op : MultiplexOp T) (hv : op.Virtual) (hg : ch.Guarded op) (hp : a.Placed op)
    (hs : ch.step b op = some ch') : LoggedStep b (ch, a, l) (ch', a.step op, logged b ch a l op) :=
  ⟨op, hv, hg, hp, hs, rfl⟩

theorem LoggedStep.invariant {s s' : MultiplexFifoChan T ε × MultiplexQueue T × MultiplexLog T}
    (hlaw : ∀ (t : T) d, ColorAccessor.get (ColorAccessor.put t d) = d) (hi : Invariant n m s.1 s.2.1)
    (hd : Delivers s.2.1 s.2.2) (hs : LoggedStep b s s') : Invariant n m s'.1 s'.2.1 ∧ Delivers s'.2.1 s'.2.2 := by
  obtain ⟨op, hv, hg, hp, hstep, heq⟩ := hs
  rw [heq]
  exact ⟨(hi.step hg hp hstep).1, hd.step hlaw hi hv hg⟩

theorem LoggedStep.run {s s' : MultiplexFifoChan T ε × MultiplexQueue T × MultiplexLog T}
    (hlaw : ∀ (t : T) d, ColorAccessor.get (ColorAccessor.put t d) = d) (hi : Invariant n m s.1 s.2.1)
    (hd : Delivers s.2.1 s.2.2) (hr : Relation.ReflTransGen (LoggedStep b) s s') :
    Invariant n m s'.1 s'.2.1 ∧ Delivers s'.2.1 s'.2.2 := by
  induction hr with
  | refl => exact ⟨hi, hd⟩
  | tail _ hstep ih => exact hstep.invariant hlaw ih.1 ih.2

end MultiplexFifoChan

end SysteMoC
