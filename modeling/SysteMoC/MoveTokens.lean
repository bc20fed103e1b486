import Mathlib.Data.List.InsertIdx
import SysteMoC.Pick
import SysteMoC.TokenDrop

/-!
# Tokens removed by a generator

`moveTokensRight` as it asks a generator for the positions, and where the other
tokens are afterwards.
-/

namespace SysteMoC

open Cyclic

namespace TokenGenerator

variable {G T : Type} [TokenGenerator G]

/-! ## The tokens that stay -/

def kept (n : Nat) (ps : List Nat) : List Nat := (List.range n).filter (· ∉ ps)

theorem eraseAll_map {α β : Type} (f : α → β) (l : List α) (ps : List Nat) :
    eraseAll (l.map f) ps = (eraseAll l ps).map f := by
  induction ps generalizing l with
  | nil => rfl
  | cons i ps ih => rw [eraseAll_cons, eraseAll_cons, List.eraseIdx_map, ih]

theorem eraseAll_range {n : Nat} {ps : List Nat} (h : Descending n ps) : eraseAll (List.range n) ps = kept n ps := by
  induction ps generalizing n with
  | nil => simp [kept, eraseAll]
  | cons i ps ih =>
    obtain ⟨hi, hps⟩ := h
    obtain ⟨k, rfl⟩ := Nat.exists_eq_add_of_le (Nat.succ_le_of_lt hi)
    have hbelow : ∀ p ∈ ps, p < i := hps.lt
    have hrange : List.range (i + 1 + k) = List.range i ++ i :: (List.range k).map (i + 1 + ·) := by
      rw [List.range_add, List.range_succ, List.append_assoc, List.singleton_append]
    have herase : (List.range (i + 1 + k)).eraseIdx i = List.range i ++ (List.range k).map (i + 1 + ·) := by
      rw [hrange, List.eraseIdx_append_of_length_le (by rw [List.length_range]), List.length_range, Nat.sub_self]
      rfl
    have hlow : (List.range i).filter (· ∉ i :: ps) = kept i ps := by
      refine List.filter_congr fun j hj => ?_
      have := List.mem_range.mp hj
      simp [show j ≠ i by omega]
    have hhigh : ((List.range k).map (i + 1 + ·)).filter (· ∉ i :: ps) = (List.range k).map (i + 1 + ·) := by
      rw [List.filter_eq_self]
      intro j hj
      obtain ⟨m, _, rfl⟩ := List.mem_map.mp hj
      have hnot : i + 1 + m ∉ ps := fun hmem => by
        have := hbelow _ hmem
        omega
      simp [show i + 1 + m ≠ i by omega, hnot]
    have hkept : kept (i + 1 + k) (i :: ps) = kept i ps ++ (List.range k).map (i + 1 + ·) := by
      rw [kept, hrange, List.filter_append, List.filter_cons_of_neg (by simp), hlow, hhigh]
    have hlen : Descending (List.range i).length ps := by rwa [List.length_range]
    rw [eraseAll_cons, herase, eraseAll_append _ _ _ hlen, ih hps, hkept]

theorem descending_of_pairwise {n : Nat} {ps : List Nat} (h : ps.Pairwise (· > ·)) (hlt : ∀ p ∈ ps, p < n) :
    Descending n ps := by
  induction ps generalizing n with
  | nil => trivial
  | cons p ps ih =>
    obtain ⟨hp, hps⟩ := List.pairwise_cons.mp h
    exact ⟨hlt p List.mem_cons_self, ih hps hp⟩

/-- Among the first `n` positions those of `ps` are gone and the others have closed up
to the right. -/
structure Removed {T : Type} (q : QueueWithStorage T) (ps : List Nat) (n : Nat) (st : Storage T) : Prop where
  moved : (List.range' ps.length (n - ps.length)).map (fun i : Nat => st (q.slot i)) =
    (kept n ps).map fun i : Nat => q.storage (q.slot i)
  freed : ∀ i < ps.length, st (q.slot i) = none
  beyond : ∀ i, n ≤ i → i < q.fsize → st (q.slot i) = q.storage (q.slot i)

/-- Slots depend on the read index modulo the ring size only. -/
theorem slot_mod (q : QueueWithStorage T) (pos : Int) :
    ({ q with rindex := q.rindex % q.fsize } : QueueWithStorage T).slot pos = q.slot pos :=
  Nat.mod_add_mod _ _ _

section
variable [Token T] {q q' : QueueWithStorage T}

theorem shiftLoop_congr (h : ∀ pos, q'.slot pos = q.slot pos) (n : Nat) : ∀ (st : Storage T) (srcPos dstPos : Int),
    q'.shiftLoop n st srcPos dstPos = q.shiftLoop n st srcPos dstPos := by
  induction n with
  | zero => exact fun _ _ _ => rfl
  | succ n ih =>
    intro st srcPos dstPos
    simp only [QueueWithStorage.shiftLoop, h, ih]

theorem moveLoop_congr (h : ∀ pos, q'.slot pos = q.slot pos) (ps : List Nat) : ∀ (st : Storage T) (srcPos dstPos : Int),
    q'.moveLoop ps st srcPos dstPos = q.moveLoop ps st srcPos dstPos := by
  induction ps with
  | nil =>
    intro st srcPos dstPos
    simp only [QueueWithStorage.moveLoop, shiftLoop_congr h, h]
  | cons p ps ih =>
    intro st srcPos dstPos
    simp only [QueueWithStorage.moveLoop, shiftLoop_congr h, h, ih]

theorem moveTokensRight_congr (h : ∀ pos, q'.slot pos = q.slot pos) (hst : q'.storage = q.storage) (ps : List Nat) :
    q'.moveTokensRight ps = q.moveTokensRight ps := by
  cases ps with
  | nil => rw [QueueWithStorage.moveTokensRight, QueueWithStorage.moveTokensRight, moveLoop_congr h, hst]
  | cons p ps => rw [QueueWithStorage.moveTokensRight, QueueWithStorage.moveTokensRight, moveLoop_congr h, hst]

/-- `moveTokensRight` on a list of positions. -/
theorem moveTokensRight_removed {ps : List Nat} {n : Nat} (hdesc : Descending n ps) (hn : n ≤ q.fsize) (hpos : 0 < q.fsize)
    (hvalid : ∀ i < n, (q.storage (q.slot i)).isSome) :
    ∃ st, q.moveTokensRight ps = some (st, (ps.length : Int)) ∧ Removed q ps n st := by
  let q₀ : QueueWithStorage T := { q with rindex := q.rindex % q.fsize }
  have hslot : ∀ pos, q₀.slot pos = q.slot pos := slot_mod q
  let l := Pick.tabulate (fun i : Nat => q.storage (q.slot i)) n
  have hlen : l.length = n := Pick.length_tabulate hvalid
  have hlist : Holds q₀.fsize q₀.storage q₀.rindex l := by
    intro i hi
    rw [hlen] at hi
    rw [Pick.getElem?_tabulate hvalid hi]
    exact congrArg q.storage (hslot i)
  have hmap : l.map some = (List.range n).map fun i : Nat => q.storage (q.slot i) := by
    refine List.ext_getElem? fun i => ?_
    rw [List.getElem?_map, List.getElem?_map]
    by_cases hi : i < n
    · obtain ⟨t, ht⟩ := Option.isSome_iff_exists.mp (hvalid i hi)
      rw [Pick.getElem?_tabulate hvalid hi, List.getElem?_range hi, Option.map_some, ht]
      rfl
    · rw [List.getElem?_eq_none (by omega), List.getElem?_eq_none (by rw [List.length_range]; omega)]
      rfl
  have hdesc' : Descending l.length ps := by rwa [hlen]
  obtain ⟨st, heq, hfreed, hheld, hrest⟩ := QueueWithStorage.moveTokensRight_eq (q := q₀) (Nat.mod_lt _ hpos)
    (by rw [hlen]; exact hn) hdesc' hlist
  have hcount := length_eraseAll l ps hdesc'
  have hkept : (eraseAll l ps).map some = (kept n ps).map fun i : Nat => q.storage (q.slot i) := by
    rw [← eraseAll_map, hmap, eraseAll_map, eraseAll_range hdesc]
  refine ⟨st, (moveTokensRight_congr hslot rfl ps).symm.trans heq, ?_, fun i hi => ?_, fun i hi hi' => ?_⟩
  · rw [← hkept]
    refine List.ext_getElem? fun i => ?_
    rw [List.getElem?_map, List.getElem?_map]
    by_cases hi : i < (eraseAll l ps).length
    · have hat := hheld i hi
      rw [add_add, List.getElem?_eq_getElem hi] at hat
      rw [List.getElem?_range' (by omega), Nat.one_mul, List.getElem?_eq_getElem hi, Option.map_some, Option.map_some, ← hslot]
      exact congrArg some hat
    · rw [List.getElem?_eq_none (by rw [List.length_range']; omega), List.getElem?_eq_none (Nat.le_of_not_lt hi)]
      rfl
  · rw [← hslot]
    exact hfreed i hi
  · rw [← hslot]
    exact hrest i (by omega) hi'

end

def wrapped : QueueWithStorage Nat where
  fsize := 4
  rindex := 3
  windex := 1
  vindex := 1
  findex := 3
  storage i := if i = 3 then some 7 else if i = 0 then some 8 else none

end TokenGenerator

end SysteMoC
