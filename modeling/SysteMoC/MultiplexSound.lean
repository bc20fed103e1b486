import Mathlib.Data.List.Induction
import Mathlib.Logic.Relation
import SysteMoC.Multiplex
import SysteMoC.Pick
import SysteMoC.StorageSound

/-!
# Multiplex FIFOs: what the loops do, the window and the delivery

The three loops of `consume` take the first tokens of a colour out of the
visible area. The counters of the virtual outlets are the colour counts of the
window, and each colour leaves in the order it came in.
-/

namespace SysteMoC

open Cyclic Pick

/-! ## Counters -/

namespace VOutletMap

variable {ε : Type} {m m' : VOutletMap ε} {c d : Nat}

def avail (m : VOutletMap ε) (c : Nat) : Option Nat := (m.lookup c).map (·.countAvailable)

theorem lookup_modify (f : VOutlet ε → VOutlet ε) :
    (modify m c f).lookup d = if d = c then (m.lookup d).map f else m.lookup d := by
  induction m with
  | nil => simp [modify]
  | cons p m ih =>
    rw [modify] at ih
    rw [modify, List.map_cons]
    by_cases hp : p.1 = c
    · rw [if_pos hp, List.lookup_cons, List.lookup_cons]
      by_cases hd : d = p.1
      · simp [hd, hp]
      · rw [beq_false_of_ne hd]
        exact ih
    · rw [if_neg hp, List.lookup_cons, List.lookup_cons]
      by_cases hd : d = p.1
      · subst hd
        simp [hp]
      · rw [beq_false_of_ne hd]
        exact ih

variable [SmocEvent ε]

theorem avail_moreData (h : moreData m c = some m') :
    (avail m c).isSome ∧ ∀ d, avail m' d = (avail m d).map (· + if d = c then 1 else 0) := by
  obtain ⟨o, ho, heq⟩ := Option.bind_eq_some_iff.mp h
  cases heq
  refine ⟨by simp [avail, ho], fun d => ?_⟩
  rw [avail, lookup_modify, avail]
  by_cases hd : d = c
  · subst hd
    simp [ho, VOutlet.moreData]
  · simp only [if_neg hd, Nat.add_zero, Option.map_map]
    rfl

theorem moreData_of_isSome (h : (avail m c).isSome) : ∃ m', moreData m c = some m' := by
  rw [avail, Option.isSome_map] at h
  obtain ⟨o, ho⟩ := Option.isSome_iff_exists.mp h
  exact ⟨m.modify c (·.moreData 1), by simp [moreData, ho]⟩

/-- Announcing a list of tokens raises each counter by the number of its colour. -/
theorem avail_foldlM {cs : List Nat} : ∀ {m m' : VOutletMap ε}, cs.foldlM moreData m = some m' →
    ∀ d, avail m' d = (avail m d).map (· + cs.count d) := by
  induction cs with
  | nil =>
    intro m m' h d
    cases h
    simp
  | cons c cs ih =>
    intro m m' h d
    rw [List.foldlM_cons] at h
    obtain ⟨m₁, h₁, h⟩ := Option.bind_eq_some_iff.mp h
    rw [ih h, (avail_moreData h₁).2, Option.map_map, List.count_cons]
    congr 1
    funext k
    by_cases hd : d = c
    · simp [hd]
      omega
    · simp [hd, Ne.symm hd]

theorem foldlM_of_isSome {cs : List Nat} : ∀ {m : VOutletMap ε}, (∀ c ∈ cs, (avail m c).isSome) →
    ∃ m', cs.foldlM moreData m = some m' := by
  induction cs with
  | nil => exact fun _ => ⟨_, rfl⟩
  | cons c cs ih =>
    intro m h
    obtain ⟨m₁, h₁⟩ := moreData_of_isSome (h c List.mem_cons_self)
    obtain ⟨m', h'⟩ := ih (m := m₁) fun d hd => by
      rw [(avail_moreData h₁).2, Option.isSome_map]
      exact h d (List.mem_cons_of_mem _ hd)
    refine ⟨m', ?_⟩
    rw [List.foldlM_cons, h₁]
    exact h'

end VOutletMap

/-! ## The loops -/

section
variable {T : Type} [Token T] [ColorAccessor T]

def colorIs (c : Nat) (t : T) : Bool := ColorAccessor.get t = c

omit [Token T] in
theorem colorIs_other {c d : Nat} (h : d ≠ c) (t : T) (ht : colorIs c t = true) : colorIs d t = false := by
  simp only [colorIs, decide_eq_true_eq] at ht
  simp [colorIs, ht, Ne.symm h]

omit [Token T] [ColorAccessor T] in
theorem Storage.get_held [Token T] {m a i : Nat} {st : Storage T} {l : List T} {t : T} (h : Holds m st a l)
    (ht : l[i]? = some t) : st.get (add m a i) = some (t, st) := by
  obtain ⟨hi, _⟩ := List.getElem?_eq_some_iff.mp ht
  rw [Storage.get, h i hi, ht]

namespace MultiplexFifoChan

variable {ε : Type} [SmocEvent ε] {b : Build} {q : QueueWithStorage T} {c : Nat}

omit [ColorAccessor T] [Token T] in
theorem between_visible {cs v p i : Nat} (h : Areas q.toQueueFRVWPtr cs v p) (hi : i < v) :
    Between q.fsize (add q.fsize q.rindex i) q.rindex (sub q.fsize q.vindex 1) := by
  have hf := h.fits
  obtain ⟨v, rfl⟩ : ∃ w, v = w + 1 := ⟨v - 1, by omega⟩
  unfold Between
  rw [h.vindex_rindex, sub_one_add h.rindex_lt (by omega), sub_add_self h.rindex_lt (by omega),
    sub_add_self h.rindex_lt (by omega)]
  omega

section
variable {cs p : Nat} {st : Storage T} {l l₂ : List T} {a : T}

theorem skipLoop_eq {v : Nat} (h : Areas q.toQueueFRVWPtr cs v p) (r : List T) :
    ∀ (s : List T) (fuel : Nat), Holds q.fsize st q.rindex (s ++ r ++ l₂) → (s ++ r).length < v → r.length < fuel →
    ∃ s' r', s ++ r = s' ++ r' ∧ r'.countP (colorIs c) = 0 ∧
      skipLoop b q c fuel st (r.countP (colorIs c) + 1) (add q.fsize q.rindex s.length) =
        some (st, add q.fsize q.rindex s'.length) := by
  induction r with
  | nil =>
    intro s fuel _ _ hf
    obtain ⟨fuel, rfl⟩ : ∃ f, fuel = f + 1 := ⟨fuel - 1, by omega⟩
    exact ⟨s, [], rfl, rfl, by simp [skipLoop]⟩
  | cons t r ih =>
    intro s fuel hheld hv hf
    obtain ⟨fuel, rfl⟩ : ∃ f, fuel = f + 1 := ⟨fuel - 1, by omega⟩
    by_cases hmc : (t :: r).countP (colorIs c) + 1 > 1
    · have hs : (s ++ t :: r ++ l₂)[s.length]? = some t := by simp
      have hpos : s.length < v := by rw [List.length_append] at hv; omega
      rw [skipLoop, if_pos hmc, b.assert_of (between_visible h hpos)]
      simp only [Option.bind_eq_bind, Option.bind_some, Storage.get_held hheld hs, add_add]
      obtain ⟨s', r', heq, hcount, hloop⟩ := ih (s ++ [t]) fuel (by simpa using hheld) (by simpa using hv)
        (by simpa using hf)
      refine ⟨s', r', by simpa using heq, hcount, ?_⟩
      rw [← hloop, List.length_append, List.length_singleton]
      congr 1
      rw [List.countP_cons]
      by_cases ht : ColorAccessor.get t = c
      · simp [colorIs, ht]
      · simp [colorIs, ht]
    · refine ⟨s, t :: r, rfl, by omega, ?_⟩
      rw [skipLoop, if_neg hmc]

theorem seekLoop_eq {v : Nat} (h : Areas q.toQueueFRVWPtr cs v p) (ha : colorIs c a = true) (r : List T) :
    ∀ (s : List T) (fuel : Nat), Holds q.fsize st q.rindex (s ++ r ++ a :: l₂) → (s ++ r).length < v →
    r.length < fuel → r.countP (colorIs c) = 0 →
    seekLoop b q c fuel st (add q.fsize q.rindex s.length) =
      some (st, add q.fsize q.rindex (s ++ r).length) := by
  have hcol : ColorAccessor.get a = c := by simpa [colorIs] using ha
  induction r with
  | nil =>
    intro s fuel hheld _ hf _
    obtain ⟨fuel, rfl⟩ : ∃ f, fuel = f + 1 := ⟨fuel - 1, by omega⟩
    have hs : (s ++ [] ++ a :: l₂)[s.length]? = some a := by simp
    rw [seekLoop]
    simp [Storage.get_held hheld hs, hcol]
  | cons t r ih =>
    intro s fuel hheld hv hf hcount
    obtain ⟨fuel, rfl⟩ : ∃ f, fuel = f + 1 := ⟨fuel - 1, by omega⟩
    have hs : (s ++ t :: r ++ a :: l₂)[s.length]? = some t := by simp
    have hpos : s.length < v := by rw [List.length_append] at hv; omega
    have ht : ColorAccessor.get t ≠ c := by
      have := List.countP_eq_zero.mp hcount t List.mem_cons_self
      simpa [colorIs] using this
    have hr : r.countP (colorIs c) = 0 := by
      rw [List.countP_cons] at hcount
      omega
    rw [seekLoop]
    simp only [Option.bind_eq_bind, Option.bind_some, Storage.get_held hheld hs, if_pos ht,
      b.assert_of (between_visible h hpos), add_add]
    have := ih (s ++ [t]) fuel (by simpa using hheld) (by simpa using hv) (by simpa using hf) hr
    simpa using this

omit [Token T] [ColorAccessor T] [SmocEvent ε] in
theorem between_gather {v i j : Nat} (h : Areas q.toQueueFRVWPtr cs v p) (hij : i ≤ j) (hj : j + 1 < q.fsize) :
    Between q.fsize (add q.fsize q.rindex i) q.rindex (sub q.fsize (add q.fsize q.rindex (j + 1)) 1) := by
  unfold Between
  rw [sub_one_add h.rindex_lt (by omega), sub_add_self h.rindex_lt (by omega),
    sub_add_self h.rindex_lt (by omega)]
  exact hij

/-- The third loop. `o` ends before `dindex` and holds the old tokens, behind
`dindex` are those gathered from `r`. -/
theorem gatherLoop_eq {v : Nat} {w : List T} (h : Areas q.toQueueFRVWPtr cs v p) (s : List T) :
    ∀ (r o : List T) (x : T) (st : Storage T) (fuel : Nat),
    Holds q.fsize st q.rindex (o ++ x :: (r.filter (fun t => !colorIs c t) ++ w)) →
    (o ++ x :: (r.filter (fun t => !colorIs c t) ++ w)).length < q.fsize →
    o.length = s.length + r.countP (colorIs c) → o.take s.length = s → s.length < fuel →
    ∃ st' g, gatherLoop b q c fuel st (add q.fsize q.rindex s.length) (add q.fsize q.rindex o.length) = some st' ∧
      g.length = (s ++ r).countP (colorIs c) + 1 ∧
      Holds q.fsize st' q.rindex (g ++ ((s ++ r).filter (fun t => !colorIs c t) ++ w)) ∧
      ∀ i, (o ++ x :: (r.filter (fun t => !colorIs c t) ++ w)).length ≤ i → i < q.fsize →
        st' (add q.fsize q.rindex i) = st (add q.fsize q.rindex i) := by
  induction s using List.reverseRecOn with
  | nil =>
    intro r o x st fuel hheld hlen ho _ hf
    obtain ⟨fuel, rfl⟩ : ∃ f, fuel = f + 1 := ⟨fuel - 1, by omega⟩
    refine ⟨st, o ++ [x], ?_, ?_, by simpa using hheld, fun _ _ _ => rfl⟩
    · rw [gatherLoop, List.length_nil, add_zero h.rindex_lt, if_pos rfl]
    · rw [List.length_append, ho]
      simp
  | append_singleton s t ih =>
    intro r o x st fuel hheld hlen ho htake hf
    obtain ⟨fuel, rfl⟩ : ∃ f, fuel = f + 1 := ⟨fuel - 1, by omega⟩
    rw [List.length_append, List.length_singleton] at ho hf htake ⊢
    have hlen' := hlen
    rw [List.length_append, List.length_cons] at hlen'
    have hmove : add q.fsize q.rindex (s.length + 1) ≠ q.rindex := by
      intro heq
      rw [← add_zero h.rindex_lt, add_add, add_inj h.rindex_lt (by omega) (by omega)] at heq
      omega
    have hot : o[s.length]? = some t := by
      rw [← List.getElem?_take_of_lt (show s.length < s.length + 1 by omega), htake]
      simp
    have ht : (o ++ x :: (r.filter (fun t => !colorIs c t) ++ w))[s.length]? = some t := by
      rw [List.getElem?_append_left (by omega)]
      exact hot
    have htake' : o.take s.length = s := by
      have := congrArg (List.take s.length) htake
      simpa [List.take_take] using this
    obtain ⟨o, y, rfl⟩ : ∃ o' y, o = o' ++ [y] :=
      ⟨o.dropLast, o.getLast (List.ne_nil_of_length_pos (by omega)), (List.dropLast_append_getLast _).symm⟩
    rw [List.length_append, List.length_singleton] at ho hlen'
    have hassert := between_gather (i := s.length) (j := o.length) h (by omega) (by omega)
    rw [gatherLoop, if_neg hmove, sub_one_add h.rindex_lt (by omega), List.length_append, List.length_singleton]
    simp only [b.assert_of hassert, Option.bind_eq_bind, Option.bind_some, Storage.get_held hheld ht]
    by_cases hc : ColorAccessor.get t = c
    · have hp : colorIs c t = true := by simp [colorIs, hc]
      have hfilter : (t :: r).filter (fun t => !colorIs c t) = r.filter (fun t => !colorIs c t) := by
        simp [hp]
      rw [if_neg (by simpa using hc)]
      obtain ⟨st', g, hloop, hg, hheld', hrest⟩ := ih (t :: r) (o ++ [y]) x st fuel (by rw [hfilter]; exact hheld)
        (by rw [hfilter]; exact hlen)
        (by rw [List.length_append, List.length_singleton, List.countP_cons_of_pos hp]; omega) htake' (by omega)
      refine ⟨st', g, ?_, by simpa using hg, by simpa using hheld', ?_⟩
      · rw [List.length_append, List.length_singleton] at hloop
        exact hloop
      · rw [hfilter] at hrest
        exact hrest
    · have hp : colorIs c t = false := by simp [colorIs, hc]
      have hfilter : (t :: r).filter (fun t => !colorIs c t) = t :: r.filter (fun t => !colorIs c t) := by
        simp [hp]
      rw [if_pos (by simpa using hc), sub_one_add h.rindex_lt (by omega)]
      have hput := holds_update (y := t) h.rindex_lt (by omega) hheld
      rw [List.length_append, List.length_singleton] at hput
      have hcount : (t :: r).countP (colorIs c) = r.countP (colorIs c) := List.countP_cons_of_neg (by simp [hp])
      obtain ⟨st', g, hloop, hg, hheld', hrest⟩ := ih (t :: r) o y _ fuel
        (by rw [hfilter]; simpa using hput) (by rw [hfilter]; simpa using hlen) (by rw [hcount]; omega)
        (by rwa [List.take_append_of_le_length (by omega)] at htake') (by omega)
      refine ⟨st', g, hloop, by simpa using hg, by simpa using hheld', fun i hi hi' => ?_⟩
      rw [hrest i (by rw [hfilter]; simpa using hi) hi']
      apply update_other h.rindex_lt hi' (by omega)
      simp at hi
      omega

/-- `consume` takes the first `n` tokens of the colour out of the visible ones and
leaves `n` slots at the head to be cleared. Slots behind the visible ones are not touched. -/
theorem takeOut_eq {n : Nat} {visible : List T} (h : Areas q.toQueueFRVWPtr cs visible.length p)
    (hheld : Holds q.fsize q.storage q.rindex visible) (hcount : n ≤ visible.countP (colorIs c)) :
    ∃ st' g, takeOut b q c n = some st' ∧ g.length = n ∧
      Holds q.fsize st' q.rindex (g ++ removeFirst (colorIs c) n visible) ∧
      ∀ i, visible.length ≤ i → i < q.fsize → st' (add q.fsize q.rindex i) = q.storage (add q.fsize q.rindex i) := by
  cases n with
  | zero => exact ⟨q.storage, [], rfl, rfl, by rwa [List.nil_append, removeFirst_zero], fun _ _ _ => rfl⟩
  | succ n =>
    obtain ⟨l₁, a, l₂, rfl, ha, hl₁, hremove⟩ := removeFirst_split hcount
    have hf := h.fits
    have hlen : (l₁ ++ a :: l₂).length = l₁.length + l₂.length + 1 := by simp; omega
    have hfuel : q.fsize ≤ (n + 1) * q.fsize := Nat.le_mul_of_pos_left _ (Nat.succ_pos n)
    obtain ⟨s', r', hsplit, hr', hskip⟩ := skipLoop_eq (b := b) (c := c) h l₁ [] ((n + 1) * q.fsize + 1) hheld
      (by rw [List.nil_append]; omega) (by omega)
    rw [List.nil_append] at hsplit
    rw [hl₁, List.length_nil, add_zero h.rindex_lt] at hskip
    have hrlen : r'.length ≤ l₁.length := by rw [hsplit, List.length_append]; omega
    have hseek := seekLoop_eq (b := b) h ha r' s' q.fsize (by rw [← hsplit]; exact hheld)
      (by rw [← hsplit]; omega) (by omega) hr'
    rw [← hsplit] at hseek
    obtain ⟨st', g, hgather, hg, hheld', hrest⟩ := gatherLoop_eq (b := b) (c := c) h l₁ [] l₁ a q.storage q.fsize
      hheld (by simp; omega) rfl (List.take_length) (by omega)
    refine ⟨st', g, ?_, ?_, ?_, ?_⟩
    · rw [takeOut, if_pos (Nat.succ_pos n)]
      simp only [hskip, hseek, Option.bind_eq_bind, Option.bind_some]
      exact hgather
    · rw [hg, List.append_nil, hl₁]
    · rw [hremove]
      rwa [List.append_nil] at hheld'
    · intro i hi hi'
      apply hrest i _ hi'
      simp
      omega

end

/-- The announcing loop visits the tokens of the list from `x` up to `o`. -/
theorem announceLoop_eq {l : List T} {o : Nat} (fuel : Nat) : ∀ (ch : MultiplexFifoChan T ε) (x : Nat),
    ch.rindex < ch.fsize → Holds ch.fsize ch.storage ch.rindex l → l.length < ch.fsize → x ≤ o → o ≤ l.length →
    o - x < fuel →
    ch.announceLoop fuel (add ch.fsize ch.rindex x) (add ch.fsize ch.rindex o) =
      ((((l.take o).drop x).map ColorAccessor.get).foldlM VOutletMap.moreData ch.vOutlets).map
        fun m => { ch with vOutlets := m } := by
  induction fuel with
  | zero => exact fun _ _ _ _ _ _ _ hf => absurd hf (Nat.not_lt_zero _)
  | succ fuel ih =>
    intro ch x hr hheld hlen hxo hol hf
    rcases Nat.eq_or_lt_of_le hxo with rfl | hlt
    · rw [announceLoop, if_pos rfl, List.drop_of_length_le (by rw [List.length_take]; omega)]
      rfl
    · have hne : add ch.fsize ch.rindex x ≠ add ch.fsize ch.rindex o := by
        intro heq
        rw [add_inj hr (by omega) (by omega)] at heq
        omega
      obtain ⟨t, ht⟩ : ∃ t, l[x]? = some t := ⟨l[x], List.getElem?_eq_getElem _⟩
      have hdrop : (l.take o).drop x = t :: (l.take o).drop (x + 1) := by
        rw [List.drop_eq_getElem_cons (by rw [List.length_take]; omega)]
        congr 1
        rw [List.getElem_take]
        exact (List.getElem?_eq_some_iff.mp ht).2
      rw [announceLoop, if_neg hne, hdrop, List.map_cons, List.foldlM_cons]
      simp only [Option.bind_eq_bind, Storage.get_held hheld ht, Option.bind_some, add_add]
      cases hm : VOutletMap.moreData ch.vOutlets (ColorAccessor.get t) with
      | none => rfl
      | some m =>
        simp only [Option.bind_some]
        exact ih { ch with vOutlets := m } (x + 1) hr hheld hlen hlt hol (by omega)

/-- What `consume` does, from the visible tokens alone. The window must end behind
the slot from which tokens are announced. -/
theorem consume_of_areas {ch : MultiplexFifoChan T ε} {cs p n : Nat} {visible : List T}
    (h : Areas ch.toQueueFRVWPtr cs visible.length p) (hheld : Holds ch.fsize ch.storage ch.rindex visible)
    (hcount : n ≤ visible.countP (colorIs c))
    (hwin : min (sizeSub (ch.fifoOutOfOrder + 1) n) (visible.length - n) ≤ ch.fifoOutOfOrder + 1) :
    ∃ st, Clear ch.fsize st ch.rindex n ∧
      Holds ch.fsize st (add ch.fsize ch.rindex n) (removeFirst (colorIs c) n visible) ∧
      (∀ i, visible.length ≤ i → i < ch.fsize →
        st (add ch.fsize ch.rindex i) = ch.storage (add ch.fsize ch.rindex i)) ∧
      ch.consume b c n = (((((removeFirst (colorIs c) n visible).take (ch.fifoOutOfOrder + 1)).drop
        (min (sizeSub (ch.fifoOutOfOrder + 1) n) (visible.length - n))).map ColorAccessor.get).foldlM
          VOutletMap.moreData ch.vOutlets).map fun vOutlets => { ch with
            rindex := add ch.fsize ch.rindex n
            storage := st
            emmAvailable := ch.emmAvailable.decreasedCount (visible.length - n)
            vOutlets := vOutlets } := by
  have hf := h.fits
  have hlen := length_removeFirst hcount
  obtain ⟨st, g, htake, hg, hst, hrest⟩ := takeOut_eq (b := b) h hheld hcount
  have hn : n ≤ visible.length := by omega
  have ha : Areas { ch.toQueueWithStorage with storage := st }.toQueueFRVWPtr cs visible.length p := h
  have hr := QueueWithStorage.rpp_eq (b := b) ha hn
  have ha' := h.rpp hn
  have hclear : ∀ k, k < ch.fsize → st.clear ch.fsize ch.rindex n (add ch.fsize ch.rindex k) =
      if k < n then none else st (add ch.fsize ch.rindex k) :=
    fun k hk => Storage.clear_add h.rindex_lt (by omega) hk
  have hheld' : Holds ch.fsize (st.clear ch.fsize ch.rindex n) (add ch.fsize ch.rindex n)
      (removeFirst (colorIs c) n visible) := by
    rw [holds_append, hg] at hst
    apply holds_congr hst.2
    intro i hi
    rw [add_add, hclear _ (by omega), if_neg (by omega)]
  refine ⟨_, fun i hi => by rw [hclear i (by omega), if_pos hi], hheld', fun i hi hi' => ?_, ?_⟩
  · rw [hclear i hi', if_neg (by omega)]
    exact hrest i hi hi'
  · let q : QueueWithStorage T :=
      { toQueueFRVWPtr := { ch.toQueueFRVWPtr with rindex := add ch.fsize ch.rindex n }
        storage := st.clear ch.fsize ch.rindex n }
    have hv : q.visibleCount = visible.length - n := ha'.visibleCount_eq
    have hx : min (sizeSub (ch.fifoOutOfOrder + 1) n) (visible.length - n) ≤
        min (ch.fifoOutOfOrder + 1) (visible.length - n) := by omega
    have hloop := announceLoop_eq (o := min (ch.fifoOutOfOrder + 1) (visible.length - n)) q.fsize
      { ch.withQueue q with emmAvailable := ch.emmAvailable.decreasedCount (visible.length - n) }
      (min (sizeSub (ch.fifoOutOfOrder + 1) n) (visible.length - n)) ha'.rindex_lt hheld'
      (by show _ < ch.fsize; omega) hx (by omega) (by show _ < ch.fsize; omega)
    rw [show visible.length - n = (removeFirst (colorIs c) n visible).length by omega, ← List.take_eq_take_min] at hloop
    rw [consume, htake]
    simp only [hr, Option.bind_eq_bind, Option.bind_some]
    rw [show (ch.withQueue q).visibleCount = visible.length - n from hv,
      show visible.length - n = (removeFirst (colorIs c) n visible).length by omega]
    exact hloop

/-! ## Reading and colouring -/

omit [Token T] [ColorAccessor T] [SmocEvent ε] in
theorem next_slot {m w : Nat} (hw : w < m) : (if w < m - 1 then w + 1 else 0) = add m w 1 := by
  rw [add_eq hw (by omega)]
  split <;> split <;> omega

omit [SmocEvent ε] in
/-- The search of an outlet's access finds the `k`-th token of its colour. -/
theorem readLoop_eq {l : List T} {m rindex : Nat} {st : Storage T} (hr : rindex < m) (hheld : Holds m st rindex l)
    (r : List T) :
    ∀ (s : List T) (fuel k : Nat) (t : T), l = s ++ r → (r.filter (colorIs c))[k]? = some t → r.length ≤ fuel →
    MultiplexVFifoOutlet.readLoop m c fuel st (add m rindex s.length) k = some (t, st) := by
  induction r with
  | nil => intro s fuel k t _ ht; simp at ht
  | cons u r ih =>
    intro s fuel k t hl ht hf
    rw [List.length_cons] at hf
    obtain ⟨fuel, rfl⟩ : ∃ f, fuel = f + 1 := ⟨fuel - 1, by omega⟩
    have hu : l[s.length]? = some u := by rw [hl]; simp
    have hnext : ∀ k', (r.filter (colorIs c))[k']? = some t →
        MultiplexVFifoOutlet.readLoop m c fuel st (add m (add m rindex s.length) 1) k' = some (t, st) := by
      intro k' ht'
      have := ih (s ++ [u]) fuel k' t (by rw [hl]; simp) ht' (by omega)
      rwa [List.length_append, List.length_singleton, ← add_add] at this
    rw [MultiplexVFifoOutlet.readLoop, next_slot (add_lt (by omega))]
    simp only [Option.bind_eq_bind, Option.bind_some, Storage.get_held hheld hu]
    by_cases hc : ColorAccessor.get u = c
    · rw [List.filter_cons_of_pos (by simp [colorIs, hc])] at ht
      cases k with
      | zero =>
        rw [if_neg (by simp [hc])]
        simpa using ht
      | succ k =>
        rw [if_pos (.inl (by omega)), if_pos hc]
        exact hnext k (by simpa using ht)
    · rw [List.filter_cons_of_neg (by simp [colorIs, hc])] at ht
      rw [if_pos (.inr hc), if_neg hc]
      exact hnext k ht

omit [SmocEvent ε] in
theorem colorLoop_eq {cs : Nat} {visible pipeline : List T} (k : Nat) : ∀ (q : QueueWithStorage T) (j : Nat),
    Carries q cs visible pipeline → j + k ≤ q.freeCount →
    (∀ i, j ≤ i → i < j + k → (q.storage (add q.fsize q.windex i)).isSome) →
    ∃ st, MultiplexVFifoEntry.colorLoop q.fsize c k q.storage (add q.fsize q.windex j) = some st ∧
      Carries { q with storage := st } cs visible pipeline ∧
      ∀ i, i < q.fsize → st (add q.fsize q.windex i) =
        if j ≤ i ∧ i < j + k then (q.storage (add q.fsize q.windex i)).map (ColorAccessor.put · c)
        else q.storage (add q.fsize q.windex i) := by
  induction k with
  | zero =>
    intro q j h _ _
    refine ⟨q.storage, rfl, h, fun i _ => ?_⟩
    rw [if_neg (by omega)]
  | succ k ih =>
    intro q j h hj hsome
    have hfree := h.areas.freeCount_eq
    have hw := h.areas.windex_lt
    obtain ⟨t, ht⟩ := Option.isSome_iff_exists.mp (hsome j (Nat.le_refl j) (by omega))
    have hnext : (if add q.fsize q.windex j + 1 ≥ q.fsize then add q.fsize q.windex j + 1 - q.fsize
        else add q.fsize q.windex j + 1) = add q.fsize q.windex (j + 1) := by
      rw [← add_add, add_eq (add_lt h.areas.fsize_pos) (by omega)]
      split <;> split <;> omega
    have hother : ∀ i, i < q.fsize → i ≠ j →
        q.storage.put (add q.fsize q.windex j) (ColorAccessor.put t c) (add q.fsize q.windex i) =
          q.storage (add q.fsize q.windex i) := fun i hi hij => update_other hw hi (by omega) hij
    obtain ⟨st, hloop, hcar, hst⟩ := ih
      { q with storage := q.storage.put (add q.fsize q.windex j) (ColorAccessor.put t c) } (j + 1)
      (h.put (by omega) _) (by show j + 1 + k ≤ q.freeCount; omega)
      (by
        intro i hi hi'
        exact (congrArg Option.isSome (hother i (by omega) (by omega))).trans (hsome i (by omega) (by omega)))
    refine ⟨st, ?_, hcar, fun i hi => ?_⟩
    · rw [MultiplexVFifoEntry.colorLoop, hnext]
      simp only [Storage.get, ht, Option.bind_eq_bind, Option.bind_some]
      exact hloop
    · refine (hst i hi).trans ?_
      simp only
      by_cases hij : i = j
      · subst hij
        rw [if_neg (by omega), if_pos (by omega), ht]
        exact Function.update_self _ _ _
      · rw [hother i hi hij]
        by_cases hin : j ≤ i ∧ i < j + (k + 1)
        · rw [if_pos (by omega), if_pos hin]
        · rw [if_neg (by omega), if_neg hin]

end MultiplexFifoChan

end

end SysteMoC
