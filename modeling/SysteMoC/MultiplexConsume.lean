import SysteMoC.MultiplexRun

/-!
# Consuming out of order

`consume` by itself, on any ring. A slot outside the visible area is not read if
the outcome is the same whatever it holds and it is left as it was: reading an
invalid slot makes it valid.
-/

namespace SysteMoC

open Cyclic Pick

namespace EventMapManager

variable {ε : Type} [SmocEvent ε] {em : EventMapManager ε} {count : Nat}

/-- No event for more than `count` is active. -/
def NotAhead (em : EventMapManager ε) (count : Nat) : Prop :=
  ∀ p ∈ em.eventMap, SmocEvent.isActive p.2 = true → p.1 ≤ count

theorem decreasedCount_same (h : em.NotAhead count) : em.decreasedCount count = em := by
  have habove : Walk.mapUntil (fun p => !SmocEvent.isActive p.2) (onEvent SmocEvent.reset) (above count em.eventMap) =
      above count em.eventMap := by
    cases hm : above count em.eventMap with
    | nil => rfl
    | cons p m =>
      have hp : p ∈ above count em.eventMap := by rw [hm]; exact List.mem_cons_self
      have hinactive : SmocEvent.isActive p.2 = false := by
        by_contra hact
        have hle := h p ((List.dropWhile_sublist _).mem hp) (by simpa using hact)
        have hlt := lt_of_mem_above hp
        omega
      simp [Walk.mapUntil, hinactive]
  unfold decreasedCount withEvents
  congr 1
  rw [habove, upTo_append_above]

theorem Inactive.notAhead (h : em.Inactive) : em.NotAhead count := by
  intro p hp hact
  rw [h p hp] at hact
  cases hact

theorem Inactive.decreasedCount (h : em.Inactive) : (em.decreasedCount count).Inactive := by
  rw [decreasedCount_same h.notAhead]
  exact h

end EventMapManager

namespace MultiplexFifoChan

variable {T ε : Type} {b : Build} {ch ch' : MultiplexFifoChan T ε} {c color n p : Nat} {visible : List T}

def withStorage (ch : MultiplexFifoChan T ε) (st : Storage T) : MultiplexFifoChan T ε := { ch with storage := st }

variable [ColorAccessor T]

/-- What is left when the first `n` tokens of a colour are gone. -/
structure Consumed (ch : MultiplexFifoChan T ε) (color n : Nat) (visible : List T) (ch' : MultiplexFifoChan T ε) :
    Prop where
  indices : ch'.toQueueFRVWPtr = { ch.toQueueFRVWPtr with rindex := add ch.fsize ch.rindex n }
  kept : Holds ch.fsize ch'.storage ch'.rindex (removeFirst (colorIs color) n visible)
  vacated : Clear ch.fsize ch'.storage ch.rindex n
  outside : ∀ i, visible.length ≤ i → i < ch.fsize →
    ch'.storage (add ch.fsize ch.rindex i) = ch.storage (add ch.fsize ch.rindex i)
  nothing : n = 0 → ch' = ch

variable [Token T] [SmocEvent ε]

/-- Whatever lies outside the visible area, `consume` succeeds, leaves the same and
announces the same. -/
def ConsumesVisible (b : Build) (ch : MultiplexFifoChan T ε) (color n : Nat) (visible : List T) : Prop :=
  ∃ vOutlets, ∀ st, Holds ch.fsize st ch.rindex visible →
    ∃ ch', (ch.withStorage st).consume b color n = some ch' ∧ Consumed (ch.withStorage st) color n visible ch' ∧
      ch'.vOutlets = vOutlets

theorem announceLoop_valid {o : Nat} (fuel : Nat) : ∀ (ch ch' : MultiplexFifoChan T ε) (x : Nat),
    ch.announceLoop fuel x o = some ch' →
      (∀ s, (ch.storage s).isSome → (ch'.storage s).isSome) ∧ (x ≠ o → (ch'.storage x).isSome) := by
  induction fuel with
  | zero =>
    intro ch ch' x h
    cases h
  | succ fuel ih =>
    intro ch ch' x h
    by_cases hx : x = o
    · rw [announceLoop, if_pos hx] at h
      cases h
      exact ⟨fun _ hs => hs, fun hne => absurd hx hne⟩
    · rw [announceLoop, if_neg hx] at h
      simp only [Option.bind_eq_bind, Option.bind_eq_some_iff] at h
      obtain ⟨⟨t, st⟩, hget, vOutlets, _, h⟩ := h
      obtain ⟨hkeep, _⟩ := ih _ _ _ h
      have hget' : st x = some t ∧ ∀ s, (ch.storage s).isSome → (st s).isSome := by
        unfold Storage.get at hget
        split at hget
        · rename_i t' ht
          simp only [Option.some.injEq, Prod.mk.injEq] at hget
          obtain ⟨rfl, rfl⟩ := hget
          exact ⟨ht, fun _ hs => hs⟩
        · obtain ⟨t', _, heq⟩ := Option.map_eq_some_iff.mp hget
          simp only [Prod.mk.injEq] at heq
          obtain ⟨rfl, rfl⟩ := heq
          refine ⟨Function.update_self _ _ _, fun s hs => ?_⟩
          by_cases hsx : s = x
          · rw [hsx, Function.update_self]
            rfl
          · rwa [Function.update_of_ne hsx]
      refine ⟨fun s hs => hkeep s (hget'.2 s hs), fun _ => hkeep x ?_⟩
      change (st x).isSome
      rw [hget'.1]
      rfl

/-! ### The event manager of plain outlets -/

/-- With virtual outlets the events of plain ones stay inactive. -/
def Virtual (em : EventMapManager ε) (m : VOutletMap ε) : Prop := em.Inactive ∧ ∃ d, (m.avail d).isSome

omit [Token T] [ColorAccessor T] in
theorem Virtual.ne_nil (h : Virtual ch.emmAvailable ch.vOutlets) : ch.vOutlets ≠ [] := by
  intro hnil
  obtain ⟨_, d, hd⟩ := h
  rw [hnil] at hd
  cases hd

theorem announceLoop_virtual {o : Nat} (fuel : Nat) : ∀ (ch : MultiplexFifoChan T ε) (x : Nat),
    Virtual ch.emmAvailable ch.vOutlets → ch.announceLoop fuel x o = some ch' →
      Virtual ch'.emmAvailable ch'.vOutlets := by
  induction fuel with
  | zero =>
    intro ch x _ h
    cases h
  | succ fuel ih =>
    intro ch x hvirt h
    unfold announceLoop at h
    split at h
    · cases h
      exact hvirt
    · simp only [Option.bind_eq_bind, Option.bind_eq_some_iff] at h
      obtain ⟨_, _, vOutlets, hmore, h⟩ := h
      obtain ⟨hem, d, hd⟩ := hvirt
      apply ih _ _ _ h
      refine ⟨hem, d, ?_⟩
      rwa [(VOutletMap.avail_moreData hmore).2, Option.isSome_map]

theorem step_virtual {op : MultiplexOp T} (hvirt : Virtual ch.emmAvailable ch.vOutlets)
    (hs : ch.step b op = some ch') : Virtual ch'.emmAvailable ch'.vOutlets := by
  cases op with
  | write entry limit i t =>
    obtain ⟨_, _, heq⟩ := Option.bind_eq_some_iff.mp hs
    cases heq
    exact hvirt
  | entryStart entry k =>
    cases entry with
    | none =>
      obtain ⟨_, _, heq⟩ := Option.bind_eq_some_iff.mp hs
      cases heq
      exact hvirt
    | some fifoId =>
      obtain ⟨_, _, hs⟩ := Option.bind_eq_some_iff.mp hs
      obtain ⟨_, _, heq⟩ := Option.bind_eq_some_iff.mp hs
      cases heq
      exact hvirt
  | entryFinish k =>
    obtain ⟨_, _, hs⟩ := Option.bind_eq_some_iff.mp hs
    obtain ⟨q, _, hs⟩ := Option.bind_eq_some_iff.mp hs
    obtain ⟨_, _, hs⟩ := Option.bind_eq_some_iff.mp hs
    rw [if_pos (show (ch.withQueue q).vOutlets ≠ [] from hvirt.ne_nil)] at hs
    apply announceLoop_virtual _ _ _ _ hs
    exact hvirt
  | outletStart fifoId k =>
    obtain ⟨_, _, hs⟩ := Option.bind_eq_some_iff.mp hs
    obtain ⟨_, _, hs⟩ := Option.bind_eq_some_iff.mp hs
    obtain ⟨_, _, hs⟩ := Option.bind_eq_some_iff.mp hs
    obtain ⟨_, _, hs⟩ := Option.bind_eq_some_iff.mp hs
    apply announceLoop_virtual _ _ _ _ hs
    obtain ⟨hem, d, hd⟩ := hvirt
    refine ⟨hem.decreasedCount, d, ?_⟩
    simp only [withQueue]
    rw [VOutletMap.avail, Option.isSome_map] at hd ⊢
    rw [VOutletMap.lookup_modify]
    split
    · rwa [Option.isSome_map]
    · exact hd
  | outletFinish k =>
    obtain ⟨_, _, hs⟩ := Option.bind_eq_some_iff.mp hs
    obtain ⟨_, _, heq⟩ := Option.bind_eq_some_iff.mp hs
    cases heq
    exact hvirt

omit [Token T] in
theorem doReset_virtual [LawfulEvent ε] {d : Nat} (hd : (ch.vOutlets.avail d).isSome) (hs : ch.doReset b = some ch') :
    Virtual ch'.emmAvailable ch'.vOutlets := by
  have hne : ch.vOutlets ≠ [] := by
    intro hnil
    rw [hnil] at hd
    cases hd
  obtain ⟨q, _, hs⟩ := Option.bind_eq_some_iff.mp hs
  change (if ch.vOutlets ≠ [] then _ else _) = _ at hs
  rw [if_pos hne] at hs
  obtain ⟨vOutlets, hmore, heq⟩ := Option.bind_eq_some_iff.mp hs
  cases heq
  refine ⟨?_, d, ?_⟩
  · change (if ch.vOutlets = [] then _ else _ : EventMapManager ε).Inactive
    rw [if_neg hne]
    exact EventMapManager.reset_inactive _
  · have hmore' : (ch.initialTokens.map ColorAccessor.get).foldlM VOutletMap.moreData
        (ch.vOutlets.map fun p => (p.1, p.2.reset)) = some vOutlets := by
      rw [List.foldlM_map]
      exact hmore
    change (vOutlets.avail d).isSome
    rw [VOutletMap.avail_foldlM hmore', Option.isSome_map, avail_reset, Option.isSome_map]
    exact hd

/-- A channel with a virtual outlet never announces more to plain outlets than is visible. -/
theorem notAhead_of_run [LawfulEvent ε] {ch₀ : MultiplexFifoChan T ε} {d : Nat} (hd : (ch₀.vOutlets.avail d).isSome)
    (hreset : ch₀.doReset b = some ch)
    (hr : Relation.ReflTransGen (fun ch ch' : MultiplexFifoChan T ε => ∃ op, ch.step b op = some ch') ch ch') :
    ch'.emmAvailable.NotAhead ch'.visibleCount := by
  suffices h : Virtual ch'.emmAvailable ch'.vOutlets from h.1.notAhead
  induction hr with
  | refl => exact doReset_virtual hd hreset
  | tail _ hstep ih =>
    obtain ⟨op, hs⟩ := hstep
    exact step_virtual ih hs

/-! ### Both cases -/

theorem consume_zero (h : Areas ch.toQueueFRVWPtr c visible.length p) (hem : ch.emmAvailable.NotAhead ch.visibleCount) :
    ch.consume b color 0 = some ch := by
  have hpos := h.fsize_pos
  have hclear : ch.storage.clear ch.fsize ch.rindex 0 = ch.storage := by
    simp [Storage.clear, Storage.invalidateFrom]
  have hr := QueueWithStorage.rpp_eq (b := b) (n := 0) h (Nat.zero_le _)
  rw [hclear, add_zero h.rindex_lt] at hr
  obtain ⟨fuel, hfuel⟩ : ∃ fuel, ch.fsize = fuel + 1 := ⟨ch.fsize - 1, by omega⟩
  rw [consume, takeOut, if_neg (Nat.lt_irrefl 0)]
  simp only [hr, Option.bind_eq_bind, Option.bind_some, withQueue]
  rw [show sizeSub (ch.fifoOutOfOrder + 1) 0 = ch.fifoOutOfOrder + 1 from if_pos (Nat.zero_le _)]
  change announceLoop { ch with emmAvailable := ch.emmAvailable.decreasedCount ch.visibleCount } ch.fsize _ _ = _
  rw [EventMapManager.decreasedCount_same hem, hfuel, announceLoop, if_pos rfl]

section
variable (h : Areas ch.toQueueFRVWPtr c visible.length p) (hcount : n ≤ visible.countP (colorIs color))
  (hsize : ch.fsize ≤ 2 ^ 64)
include h hcount hsize

/-- Inside the window, or with no more tokens left than fit in it, nothing else is read. -/
theorem consumesVisible_of (houtlets : ∀ t ∈ visible, (ch.vOutlets.lookup (ColorAccessor.get t)).isSome)
    (hem : ch.emmAvailable.NotAhead ch.visibleCount)
    (hwin : n ≤ ch.fifoOutOfOrder + 1 ∨ visible.length ≤ n + (ch.fifoOutOfOrder + 1)) :
    ConsumesVisible b ch color n visible := by
  have hf := h.fits
  have hlen := length_removeFirst hcount
  have hle : min (sizeSub (ch.fifoOutOfOrder + 1) n) (visible.length - n) ≤ ch.fifoOutOfOrder + 1 := by
    unfold sizeSub
    split <;> omega
  let entering := ((removeFirst (colorIs color) n visible).take (ch.fifoOutOfOrder + 1)).drop
    (min (sizeSub (ch.fifoOutOfOrder + 1) n) (visible.length - n))
  have hknown : ∀ d ∈ entering.map ColorAccessor.get, (ch.vOutlets.avail d).isSome := by
    intro d hd
    obtain ⟨t, ht, rfl⟩ := List.mem_map.mp hd
    have hmem := (removeFirst_sublist n visible).mem ((List.take_sublist _ _).mem ((List.drop_sublist _ _).mem ht))
    rw [VOutletMap.avail, Option.isSome_map]
    exact houtlets t hmem
  obtain ⟨vOutlets, hannounce⟩ := VOutletMap.foldlM_of_isSome hknown
  refine ⟨vOutlets, fun st hst => ?_⟩
  have hareas : Areas (ch.withStorage st).toQueueFRVWPtr c visible.length p := h
  obtain ⟨st', hclear, hkept, hrest, heq⟩ := consume_of_areas (b := b) hareas hst hcount hle
  change _ = (((entering.map ColorAccessor.get).foldlM VOutletMap.moreData ch.vOutlets)).map _ at heq
  rw [hannounce] at heq
  refine ⟨_, heq, ⟨rfl, hkept, hclear, hrest, fun hn => ?_⟩, rfl⟩
  subst hn
  rw [consume_zero hareas hem] at heq
  exact (Option.some.inj heq).symm

/-- Otherwise the announcing loop starts behind the visible area. -/
theorem reads_outside (hn : ch.fifoOutOfOrder + 1 < n) (hleft : n + (ch.fifoOutOfOrder + 1) < visible.length) :
    ¬ ConsumesVisible b ch color n visible := by
  intro hcon
  obtain ⟨_, hcon⟩ := hcon
  have hf := h.fits
  have hlen := length_removeFirst hcount
  -- a ring with the visible tokens only
  let st : Storage T := fun s => visible[sub ch.fsize s ch.rindex]?
  have hst : ∀ i, i < ch.fsize → st (add ch.fsize ch.rindex i) = visible[i]? := by
    intro i hi
    change visible[sub ch.fsize (add ch.fsize ch.rindex i) ch.rindex]? = _
    rw [sub_add_self h.rindex_lt hi]
  obtain ⟨ch', hs, hconsumed, _⟩ := hcon st fun i hi => hst i (by omega)
  have hout : ch'.storage (add ch.fsize ch.rindex visible.length) = st (add ch.fsize ch.rindex visible.length) :=
    hconsumed.outside _ (Nat.le_refl _) (show _ < ch.fsize by omega)
  rw [hst _ (by omega), List.getElem?_eq_none (Nat.le_refl _)] at hout
  have hx : sizeSub (ch.fifoOutOfOrder + 1) n = ch.fifoOutOfOrder + 1 + 2 ^ 64 - n := if_neg (by omega)
  unfold consume at hs
  simp only [Option.bind_eq_bind, Option.bind_eq_some_iff] at hs
  obtain ⟨st', _, q, hq, hloop⟩ := hs
  have hr := QueueWithStorage.rpp_eq (b := b) (q := ⟨ch.toQueueFRVWPtr, st'⟩) h (show n ≤ visible.length by omega)
  obtain rfl := Option.some.inj (hq.symm.trans hr)
  have hv := (h.rpp (n := n) (by omega)).visibleCount_eq
  obtain ⟨ch₁, hloop'⟩ : ∃ ch₁, announceLoop ch₁ ch.fsize (add ch.fsize (add ch.fsize ch.rindex n)
      (min (sizeSub (ch.fifoOutOfOrder + 1) n) (visible.length - n))) (add ch.fsize (add ch.fsize ch.rindex n)
      (min (ch.fifoOutOfOrder + 1) (visible.length - n))) = some ch' := by
    rw [← hv]
    exact ⟨_, hloop⟩
  rw [add_add, add_add, hx, Nat.min_eq_right (by omega), Nat.min_eq_left (by omega),
    show n + (visible.length - n) = visible.length by omega] at hloop'
  have hread := (announceLoop_valid _ _ _ _ hloop').2 (by
    rw [Ne, add_inj h.rindex_lt (by omega) (by omega)]
    omega)
  rw [hout] at hread
  cases hread

end

end MultiplexFifoChan

end SysteMoC
