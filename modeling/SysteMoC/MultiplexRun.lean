import SysteMoC.MultiplexSound

/-!
# Multiplex FIFOs along runs

The ring as a queue of coloured tokens, the window accounting of the virtual
outlets and the delivery to each of them.
-/

namespace SysteMoC

open Cyclic Pick

structure MultiplexQueue (T : Type) where
  consuming : Nat
  visible : List T
  pipeline : List T
  /-- The tokens placed for coming commits, with the entry they were placed through. -/
  staged : Nat → Option (Option Nat × T)

namespace MultiplexQueue

variable {T : Type} [ColorAccessor T]

def initial (ts : List T) : MultiplexQueue T := ⟨0, ts, [], fun _ => none⟩

def colored : Option Nat → T → T
  | none, t => t
  | some fifoId, t => ColorAccessor.put t fifoId

def commits (a : MultiplexQueue T) (entry : Option Nat) (k : Nat) : List T :=
  tabulate (fun i => (a.staged i).map fun e => colored entry e.2) k

def step (a : MultiplexQueue T) : MultiplexOp T → MultiplexQueue T
  | .write entry _ i t => { a with staged := Function.update a.staged i (some (entry, t)) }
  | .entryStart entry k =>
    { a with
      pipeline := a.pipeline ++ a.commits entry k
      staged := fun i => a.staged (i + k) }
  | .entryFinish k =>
    { a with
      visible := a.visible ++ a.pipeline.take k
      pipeline := a.pipeline.drop k }
  | .outletStart fifoId k =>
    { a with
      consuming := a.consuming + k
      visible := removeFirst (colorIs fifoId) k a.visible }
  | .outletFinish k => { a with consuming := a.consuming - k }

/-- A commit is of tokens placed through its own entry. -/
def Placed (a : MultiplexQueue T) : MultiplexOp T → Prop
  | .entryStart entry k => ∀ i < k, ∃ t, a.staged i = some (entry, t)
  | _ => True

variable {a : MultiplexQueue T} {entry : Option Nat} {k : Nat}

omit [ColorAccessor T] in
theorem isSome_staged (h : ∀ i < k, ∃ t, a.staged i = some (entry, t)) {f : Option Nat × T → T} :
    ∀ i < k, ((a.staged i).map f).isSome := by
  intro i hi
  obtain ⟨t, ht⟩ := h i hi
  rw [ht]
  rfl

theorem length_commits (h : ∀ i < k, ∃ t, a.staged i = some (entry, t)) : (a.commits entry k).length = k :=
  length_tabulate (isSome_staged h)

theorem getElem?_commits (h : ∀ i < k, ∃ t, a.staged i = some (entry, t)) {i : Nat} (hi : i < k) :
    (a.commits entry k)[i]? = (a.staged i).map fun e => colored entry e.2 :=
  getElem?_tabulate (isSome_staged h) hi

end MultiplexQueue

namespace MultiplexFifoChan

variable {T ε : Type} [Token T] [ColorAccessor T] [SmocEvent ε] {b : Build} {n m : Nat}
  {ch ch' : MultiplexFifoChan T ε} {a : MultiplexQueue T}

/-- The channel carries the lists, and the counters are those of the window. -/
structure Simulates (n m : Nat) (ch : MultiplexFifoChan T ε) (a : MultiplexQueue T) : Prop where
  carries : Carries ch.toQueueWithStorage a.consuming a.visible a.pipeline
  fsize_eq : ch.fsize = n + 1
  window_eq : ch.fifoOutOfOrder = m
  window_le : m + 1 ≤ n
  staged : ∀ i entry t, a.staged i = some (entry, t) →
    i < ch.freeCount ∧ ch.storage (add ch.fsize ch.windex i) = some t

/-- Each counter is the number of tokens of its colour in the window. -/
def Accounted (m : Nat) (ch : MultiplexFifoChan T ε) (a : MultiplexQueue T) : Prop :=
  ∀ d k, ch.vOutlets.avail d = some k → k = (a.visible.take (m + 1)).countP (colorIs d)

/-- The tokens that enter the window when `k` tokens become visible. -/
def entering (m k : Nat) (a : MultiplexQueue T) : List T :=
  ((a.visible ++ a.pipeline.take k).take (m + 1)).drop (min (m + 1) a.visible.length)

/-- The tokens that enter the window when `k` tokens of a colour leave it. -/
def following (m color k : Nat) (a : MultiplexQueue T) : List T :=
  ((removeFirst (colorIs color) k a.visible).take (m + 1)).drop
    (min (m + 1 - k) (removeFirst (colorIs color) k a.visible).length)

namespace Simulates

omit [Token T] [ColorAccessor T] [SmocEvent ε] in
theorem freeCount_eq (h : Simulates n m ch a) :
    ch.freeCount = n - (a.consuming + a.visible.length + a.pipeline.length) := by
  rw [h.carries.areas.freeCount_eq, h.fsize_eq, Nat.add_sub_cancel]

omit [Token T] [ColorAccessor T] [SmocEvent ε] in
theorem moved {q : QueueWithStorage T} {a' : MultiplexQueue T} {k : Nat} (h : Simulates n m ch a)
    (hcar : Carries q a'.consuming a'.visible a'.pipeline) (hq : q.fsize = ch.fsize)
    (hf : Fresh ch.toQueueWithStorage q k) (hfree : ch.freeCount ≤ q.freeCount + k)
    (hs : ∀ i, a'.staged i = a.staged (i + k)) (hch : ch'.toQueueWithStorage = q)
    (hw : ch'.fifoOutOfOrder = ch.fifoOutOfOrder) : Simulates n m ch' a' := by
  subst hch
  refine ⟨hcar, hq.trans h.fsize_eq, hw.trans h.window_eq, h.window_le, fun i entry t ht => ?_⟩
  rw [hs] at ht
  obtain ⟨hlt, hval⟩ := h.staged _ _ _ ht
  refine ⟨by omega, ?_⟩
  rw [hf i (by omega), if_pos (Nat.le_of_lt hlt)]
  exact hval

theorem latencyExpired_eq {k : Nat} (h : Simulates n m ch a) (hk : k ≤ a.pipeline.length) :
    ∃ q, Carries q a.consuming (a.visible ++ a.pipeline.take k) (a.pipeline.drop k) ∧ q.fsize = ch.fsize ∧
      Fresh ch.toQueueWithStorage q 0 ∧
      ch.latencyExpired b k = if ch.vOutlets = [] then
          some { ch with toQueueWithStorage := q, emmAvailable := ch.emmAvailable.increasedCount q.visibleCount }
        else (((entering m k a).map ColorAccessor.get).foldlM VOutletMap.moreData ch.vOutlets).map
          fun vOutlets => { ch with toQueueWithStorage := q, vOutlets := vOutlets } := by
  obtain ⟨q, hq, hcar, hsize, hfresh⟩ := h.carries.vpp (b := b) hk
  refine ⟨q, hcar, hsize, hfresh, ?_⟩
  have hfits := hcar.areas.fits
  have hlen : (a.visible ++ a.pipeline.take k).length = a.visible.length + k := by
    rw [List.length_append, List.length_take_of_le hk]
  have hv : q.visibleCount = a.visible.length + k := by rw [hcar.areas.visibleCount_eq, hlen]
  have hassert : k ≤ q.visibleCount := by omega
  rw [latencyExpired]
  simp only [hq, Option.bind_eq_bind, Option.bind_some]
  rw [show (ch.withQueue q).visibleCount = q.visibleCount from rfl, b.assert_of hassert]
  by_cases hne : ch.vOutlets = []
  · rw [if_pos hne, Option.bind_some, if_neg (by simpa [withQueue] using hne)]
    rfl
  · have hheld : Holds q.fsize q.storage q.rindex (a.visible ++ a.pipeline.take k) :=
      (holds_append.mp hcar.held).1
    have hsub : sizeSub q.visibleCount k = a.visible.length := by
      rw [sizeSub, if_pos hassert, hv]
      omega
    rw [if_neg hne, Option.bind_some, if_pos (by simpa [withQueue] using hne), hsub, hv]
    have hloop := announceLoop_eq (l := a.visible ++ a.pipeline.take k) (o := min (m + 1) (a.visible.length + k))
      q.fsize (ch.withQueue q) (min (m + 1) a.visible.length) hcar.areas.rindex_lt hheld
      (by rw [hlen]; show _ < q.fsize; omega) (by omega) (by omega) (by omega)
    rw [← hlen, ← List.take_eq_take_min, hlen, ← h.window_eq] at hloop
    rw [entering, ← h.window_eq]
    exact hloop

theorem consume_eq {color k : Nat} (h : Simulates n m ch a)
    (hk : k ≤ (a.visible.take (m + 1)).countP (colorIs color)) :
    ∃ q, Carries q (a.consuming + k) (removeFirst (colorIs color) k a.visible) a.pipeline ∧ q.fsize = ch.fsize ∧
      Fresh ch.toQueueWithStorage q 0 ∧
      ch.consume b color k =
        (((following m color k a).map ColorAccessor.get).foldlM VOutletMap.moreData ch.vOutlets).map
          fun vOutlets => { ch with
            toQueueWithStorage := q
            emmAvailable := ch.emmAvailable.decreasedCount q.visibleCount
            vOutlets := vOutlets } := by
  have hfits := h.carries.areas.fits
  have hwin : k ≤ m + 1 := by
    have := List.countP_le_length (p := colorIs color) (l := a.visible.take (m + 1))
    rw [List.length_take] at this
    omega
  have hcount : k ≤ a.visible.countP (colorIs color) :=
    Nat.le_trans hk ((List.take_sublist (m + 1) a.visible).countP_le)
  have hlen := length_removeFirst hcount
  obtain rfl := h.window_eq
  have hsub : sizeSub (ch.fifoOutOfOrder + 1) k = ch.fifoOutOfOrder + 1 - k := if_pos hwin
  obtain ⟨st, hclear, hheld, hrest, heq⟩ := consume_of_areas (b := b) h.carries.areas
    (holds_append.mp h.carries.held).1 hcount (by omega)
  let q : QueueWithStorage T :=
    { toQueueFRVWPtr := { ch.toQueueFRVWPtr with rindex := add ch.fsize ch.rindex k }, storage := st }
  have hareas : Areas q.toQueueFRVWPtr (a.consuming + k) (a.visible.length - k) a.pipeline.length :=
    h.carries.areas.rpp (by omega)
  have hv : q.visibleCount = a.visible.length - k := hareas.visibleCount_eq
  refine ⟨q, ⟨?_, ?_, ?_⟩, rfl, fun i hi => ?_, ?_⟩
  · rw [show (removeFirst (colorIs color) k a.visible).length = a.visible.length - k by omega]
    exact hareas
  · have hback : ∀ i, add ch.fsize ch.findex i = add ch.fsize ch.rindex (ch.fsize - a.consuming + i) := by
      intro i
      rw [h.carries.slot_rindex, show a.consuming + (ch.fsize - a.consuming + i) = i + ch.fsize by omega, ← add_add,
        add_self (add_lt h.carries.areas.fsize_pos)]
    rw [clear_add]
    refine ⟨fun i hi => ?_, fun i hi => ?_⟩
    · show st (add ch.fsize ch.findex i) = none
      rw [hback, hrest _ (by omega) (by omega), ← hback]
      exact h.carries.cleared i hi
    · show st (add ch.fsize (add ch.fsize ch.findex a.consuming) i) = none
      rw [← h.carries.areas.rindex_eq]
      exact hclear i hi
  · rw [holds_append]
    refine ⟨hheld, ?_⟩
    show Holds ch.fsize st (add ch.fsize (add ch.fsize ch.rindex k) _) a.pipeline
    rw [add_add, show k + (removeFirst (colorIs color) k a.visible).length = a.visible.length by omega]
    apply holds_congr (holds_append.mp h.carries.held).2
    intro i hi
    rw [add_add]
    exact hrest _ (by omega) (by omega)
  · have hfree := h.carries.areas.freeCount_eq
    have hqfree : q.freeCount = ch.fsize - 1 - (a.consuming + k + (a.visible.length - k) + a.pipeline.length) :=
      hareas.freeCount_eq
    show st (add ch.fsize ch.windex i) = _
    rw [if_pos (show i + 0 ≤ ch.freeCount by omega), Nat.add_zero, h.carries.areas.windex_rindex, add_add]
    exact hrest _ (by omega) (by omega)
  · rw [following, ← hsub, show (removeFirst (colorIs color) k a.visible).length = a.visible.length - k by omega, hv, heq]

omit [SmocEvent ε] [Token T] in
theorem wpp_eq {st : Storage T} {entry : Option Nat} {k : Nat} (h : Simulates n m ch a)
    (hp : ∀ i < k, ∃ t, a.staged i = some (entry, t)) (hk : k ≤ ch.freeCount)
    (hcar : Carries { ch.toQueueWithStorage with storage := st } a.consuming a.visible a.pipeline)
    (hst : ∀ i, i < ch.fsize → st (add ch.fsize ch.windex i) = if i < k then
      (ch.storage (add ch.fsize ch.windex i)).map (MultiplexQueue.colored entry)
      else ch.storage (add ch.fsize ch.windex i)) :
    ∃ q, { ch.toQueueWithStorage with storage := st }.wpp b k = some q ∧
      ∀ ch' : MultiplexFifoChan T ε, ch'.toQueueWithStorage = q → ch'.fifoOutOfOrder = ch.fifoOutOfOrder →
        Simulates n m ch' (a.step (.entryStart entry k)) := by
  have hfree := h.carries.areas.freeCount_eq
  have hfits := h.carries.areas.fits
  have hlen := MultiplexQueue.length_commits hp
  have hheld : Holds ch.fsize st ch.windex (a.commits entry k) := by
    intro i hi
    rw [hlen] at hi
    obtain ⟨t, ht⟩ := hp i hi
    rw [hst i (by omega), if_pos hi, MultiplexQueue.getElem?_commits hp hi, ht, (h.staged _ _ _ ht).2]
    rfl
  obtain ⟨q, hq, hcar', hsize, hfresh⟩ := hcar.wpp (b := b) (by rw [hlen]; exact hk) hheld
  rw [hlen] at hq hfresh
  have hqfree := hcar'.areas.freeCount_eq
  rw [List.length_append, hlen, hsize] at hqfree
  refine ⟨q, hq, fun ch' hch hw => ?_⟩
  subst hch
  refine ⟨hcar', hsize.trans h.fsize_eq, hw.trans h.window_eq, h.window_le, fun i e t ht => ?_⟩
  obtain ⟨hlt, hval⟩ := h.staged _ _ _ ht
  refine ⟨by simp only at hqfree; omega, ?_⟩
  rw [hfresh i (by simp only at hqfree; omega)]
  refine (if_pos (Nat.le_of_lt hlt)).trans ?_
  show st (add ch.fsize ch.windex (i + k)) = _
  rw [hst _ (by omega), if_neg (by omega)]
  exact hval

end Simulates

/-! ## Window accounting -/

omit [Token T] in
theorem count_colors (l : List T) (d : Nat) : (l.map ColorAccessor.get).count d = l.countP (colorIs d) := by
  rw [List.count_eq_countP, List.countP_map]
  congr 1

omit [Token T] [SmocEvent ε] [ColorAccessor T] in
theorem countP_entering (p : T → Bool) (k : Nat) :
    ((a.visible ++ a.pipeline.take k).take (m + 1)).countP p =
      (a.visible.take (m + 1)).countP p + (entering m k a).countP p := by
  rw [countP_take_drop p ((a.visible ++ a.pipeline.take k).take (m + 1)) (min (m + 1) a.visible.length),
    List.take_take, Nat.min_eq_left (Nat.min_le_left _ _), List.take_append_of_le_length (Nat.min_le_right _ _),
    ← List.take_eq_take_min]
  rfl

omit [Token T] in
theorem countP_following {color k : Nat} (p : T → Bool)
    (hk : k ≤ (a.visible.take (m + 1)).countP (colorIs color)) :
    ((removeFirst (colorIs color) k a.visible).take (m + 1)).countP p =
      (removeFirst (colorIs color) k (a.visible.take (m + 1))).countP p + (following m color k a).countP p := by
  have hlen := length_removeFirst hk
  have hsplit : removeFirst (colorIs color) k a.visible =
      removeFirst (colorIs color) k (a.visible.take (m + 1)) ++ a.visible.drop (m + 1) := by
    rw [← removeFirst_append hk, List.take_append_drop]
  have hwin : min (m + 1 - k) (removeFirst (colorIs color) k a.visible).length =
      (removeFirst (colorIs color) k (a.visible.take (m + 1))).length := by
    rw [hsplit, List.length_append, List.length_drop]
    rw [List.length_take] at hlen
    omega
  have hle : (removeFirst (colorIs color) k (a.visible.take (m + 1))).length ≤ m + 1 := by omega
  rw [following, hwin, countP_take_drop p ((removeFirst (colorIs color) k a.visible).take (m + 1))
    (removeFirst (colorIs color) k (a.visible.take (m + 1))).length, List.take_take, Nat.min_eq_left hle]
  congr 2
  rw [hsplit, List.take_left]

/-- What holds between the channel and the queue after every operation. -/
structure Invariant (n m : Nat) (ch : MultiplexFifoChan T ε) (a : MultiplexQueue T) : Prop where
  simulates : Simulates n m ch a
  accounted : Accounted m ch a

omit [Token T] in
theorem avail_announced {l : List T} {vOutlets vOutlets' : VOutletMap ε}
    (h : (l.map ColorAccessor.get).foldlM VOutletMap.moreData vOutlets = some vOutlets') (d : Nat) :
    vOutlets'.avail d = (vOutlets.avail d).map (· + l.countP (colorIs d)) := by
  rw [VOutletMap.avail_foldlM h, count_colors]

theorem Invariant.entryFinish {k : Nat} (h : Invariant n m ch a) (hk : k ≤ a.pipeline.length)
    (hs : ch.latencyExpired b k = some ch') :
    Invariant n m ch' (a.step (.entryFinish k)) ∧
      ∀ d, (ch'.vOutlets.avail d).isSome = (ch.vOutlets.avail d).isSome := by
  have hsim := h.simulates
  obtain ⟨q, hcar, hsize, hfresh, heq⟩ := hsim.latencyExpired_eq (b := b) hk
  have hfree : ch.freeCount ≤ q.freeCount + 0 := by
    have := hsim.freeCount_eq
    have := hcar.areas.freeCount_eq
    rw [hsize, hsim.fsize_eq, List.length_append, List.length_drop, List.length_take] at this
    omega
  rw [heq] at hs
  by_cases hne : ch.vOutlets = []
  · rw [if_pos hne] at hs
    cases hs
    refine ⟨⟨hsim.moved hcar hsize hfresh hfree (fun _ => rfl) rfl rfl, fun d j hj => ?_⟩, fun _ => rfl⟩
    simp [hne, VOutletMap.avail] at hj
  · rw [if_neg hne] at hs
    obtain ⟨vOutlets, hv, rfl⟩ := Option.map_eq_some_iff.mp hs
    refine ⟨⟨hsim.moved hcar hsize hfresh hfree (fun _ => rfl) rfl rfl, fun d j hj => ?_⟩, fun d => ?_⟩
    · obtain ⟨i, hi, rfl⟩ := Option.map_eq_some_iff.mp ((avail_announced hv d).symm.trans hj)
      rw [h.accounted d i hi]
      exact (countP_entering _ _).symm
    · show (vOutlets.avail d).isSome = _
      rw [avail_announced hv, Option.isSome_map]

theorem Invariant.outletStart_eq {color k : Nat} {o : VOutlet ε} (h : Invariant n m ch a)
    (ho : ch.vOutlets.lookup color = some o) (hk : k ≤ o.countAvailable) :
    ∃ q vOutlets, Carries q (a.consuming + k) (removeFirst (colorIs color) k a.visible) a.pipeline ∧
      q.fsize = ch.fsize ∧ Fresh ch.toQueueWithStorage q 0 ∧
      (∀ d, VOutletMap.avail vOutlets d = if d = color then some (o.countAvailable - k) else ch.vOutlets.avail d) ∧
      MultiplexVFifoOutlet.commStart b ch color k =
        (((following m color k a).map ColorAccessor.get).foldlM VOutletMap.moreData vOutlets).map
          fun vOutlets => { ch with
            toQueueWithStorage := q
            emmAvailable := ch.emmAvailable.decreasedCount q.visibleCount
            vOutlets := vOutlets } := by
  have hsim := h.simulates
  have hcount : o.countAvailable = (a.visible.take (m + 1)).countP (colorIs color) :=
    h.accounted color _ (by rw [VOutletMap.avail, ho]; rfl)
  let f : VOutlet ε → VOutlet ε := fun o' => ⟨sizeSub o.countAvailable k,
    o'.emmAvailable.decreasedCount (sizeSub o.countAvailable k)⟩
  have hsim' : Simulates n m { ch with vOutlets := ch.vOutlets.modify color f } a :=
    ⟨hsim.carries, hsim.fsize_eq, hsim.window_eq, hsim.window_le, hsim.staged⟩
  obtain ⟨q, hcar, hsize, hfresh, heq⟩ := hsim'.consume_eq (b := b) (hk.trans_eq hcount)
  refine ⟨q, ch.vOutlets.modify color f, hcar, hsize, hfresh, fun d => ?_, ?_⟩
  · rw [VOutletMap.avail, VOutletMap.lookup_modify]
    by_cases hd : d = color
    · subst hd
      rw [if_pos rfl, if_pos rfl, ho]
      simp only [Option.map_some, f, sizeSub, if_pos hk]
    · rw [if_neg hd, if_neg hd]
      rfl
  · rw [MultiplexVFifoOutlet.commStart]
    simp only [ho, Option.bind_eq_bind, Option.bind_some, b.assert_of hk]
    exact heq

theorem Invariant.outletStart {color k : Nat} {o : VOutlet ε} (h : Invariant n m ch a)
    (ho : ch.vOutlets.lookup color = some o) (hk : k ≤ o.countAvailable)
    (hs : MultiplexVFifoOutlet.commStart b ch color k = some ch') :
    Invariant n m ch' (a.step (.outletStart color k)) ∧
      ∀ d, (ch'.vOutlets.avail d).isSome = (ch.vOutlets.avail d).isSome := by
  have hsim := h.simulates
  have hcount : o.countAvailable = (a.visible.take (m + 1)).countP (colorIs color) :=
    h.accounted color _ (by rw [VOutletMap.avail, ho]; rfl)
  obtain ⟨q, vOutlets, hcar, hsize, hfresh, havail, heq⟩ := h.outletStart_eq (b := b) ho hk
  obtain ⟨vOutlets', hv, rfl⟩ := Option.map_eq_some_iff.mp (heq.symm.trans hs)
  have hfree : ch.freeCount ≤ q.freeCount + 0 := by
    have hlen := length_removeFirst (Nat.le_trans hk (hcount ▸ (List.take_sublist (m + 1) a.visible).countP_le))
    have := hsim.freeCount_eq
    have := hcar.areas.freeCount_eq
    rw [hsize] at this
    have hn := hsim.fsize_eq
    omega
  refine ⟨⟨hsim.moved hcar hsize hfresh hfree (fun _ => rfl) rfl rfl, fun d j hj => ?_⟩, fun d => ?_⟩
  · obtain ⟨i, hi, rfl⟩ := Option.map_eq_some_iff.mp ((avail_announced hv d).symm.trans hj)
    rw [show i = (removeFirst (colorIs color) k (a.visible.take (m + 1))).countP (colorIs d) from ?_]
    · exact (countP_following _ (hcount ▸ hk)).symm
    · rw [havail] at hi
      by_cases hd : d = color
      · subst hd
        rw [if_pos rfl, Option.some.injEq] at hi
        rw [countP_removeFirst, ← hcount, hi]
      · rw [if_neg hd] at hi
        rw [countP_removeFirst_other (colorIs_other hd)]
        exact h.accounted d i hi
  · show (vOutlets'.avail d).isSome = _
    rw [avail_announced hv, Option.isSome_map, havail]
    by_cases hd : d = color
    · subst hd
      rw [if_pos rfl, VOutletMap.avail, ho]
      rfl
    · rw [if_neg hd]

omit [SmocEvent ε] in
theorem Simulates.colorLoop_eq {fifoId k : Nat} (h : Simulates n m ch a) (hk : k ≤ ch.freeCount)
    (hp : ∀ i < k, ∃ t, a.staged i = some (some fifoId, t)) :
    ∃ st, MultiplexVFifoEntry.colorLoop ch.fsize fifoId k ch.storage ch.windex = some st ∧
      Carries { ch.toQueueWithStorage with storage := st } a.consuming a.visible a.pipeline ∧
      ∀ i, i < ch.fsize → st (add ch.fsize ch.windex i) = if i < k then
        (ch.storage (add ch.fsize ch.windex i)).map (MultiplexQueue.colored (some fifoId))
        else ch.storage (add ch.fsize ch.windex i) := by
  have hsome : ∀ i, 0 ≤ i → i < 0 + k → (ch.storage (add ch.fsize ch.windex i)).isSome := by
    intro i _ hi
    obtain ⟨t, ht⟩ := hp i (by omega)
    rw [(h.staged _ _ _ ht).2]
    rfl
  obtain ⟨st, hloop, hcar, hst⟩ := MultiplexFifoChan.colorLoop_eq (c := fifoId) k ch.toQueueWithStorage 0
    h.carries (by rw [Nat.zero_add]; exact hk) hsome
  rw [add_zero h.carries.areas.windex_lt] at hloop
  refine ⟨st, hloop, hcar, fun i hi => ?_⟩
  rw [hst i hi]
  by_cases hik : i < k
  · rw [if_pos (by omega), if_pos hik]
    rfl
  · rw [if_neg (by omega), if_neg hik]

omit [SmocEvent ε] [Token T] in
theorem plain_eq (ch : MultiplexFifoChan T ε) (k : Nat) : ∀ i, i < ch.fsize →
    ch.storage (add ch.fsize ch.windex i) = if i < k then
      (ch.storage (add ch.fsize ch.windex i)).map (MultiplexQueue.colored none)
      else ch.storage (add ch.fsize ch.windex i) := by
  intro i _
  rw [show MultiplexQueue.colored (T := T) none = id from rfl, Option.map_id]
  simp

/-- Operations keep the invariant and the set of virtual outlets. -/
theorem Invariant.step {op : MultiplexOp T} (h : Invariant n m ch a) (hg : ch.Guarded op) (hp : a.Placed op)
    (hs : ch.step b op = some ch') :
    Invariant n m ch' (a.step op) ∧ ∀ d, (ch'.vOutlets.avail d).isSome = (ch.vOutlets.avail d).isSome := by
  have hsim := h.simulates
  have hfree := hsim.carries.areas.freeCount_eq
  have hfits := hsim.carries.areas.fits
  cases op with
  | write entry limit i t =>
    have hi : i < ch.freeCount := hg.2
    rw [MultiplexFifoChan.step, MultiplexVFifoEntry.write, ringWrite, b.debugAssert_of hg.1,
      ringSlot_eq hsim.carries.areas.windex_lt (by omega)] at hs
    cases hs
    refine ⟨⟨⟨hsim.carries.put hi t, hsim.fsize_eq, hsim.window_eq, hsim.window_le, fun j e u hj => ?_⟩,
      h.accounted⟩, fun _ => rfl⟩
    show _ ∧ Function.update ch.storage (add ch.fsize ch.windex i) (some t) (add ch.fsize ch.windex j) = some u
    have hj : Function.update a.staged i (some (entry, t)) j = some (e, u) := hj
    by_cases hji : j = i
    · subst hji
      rw [Function.update_self] at hj ⊢
      cases hj
      exact ⟨hi, rfl⟩
    · rw [Function.update_of_ne hji] at hj
      obtain ⟨hlt, hval⟩ := hsim.staged j e u hj
      rw [update_other hsim.carries.areas.windex_lt (by omega) (by omega) hji]
      exact ⟨hlt, hval⟩
  | entryStart entry k =>
    cases entry with
    | none =>
      obtain ⟨q, hq, hsim'⟩ := hsim.wpp_eq (b := b) hp hg hsim.carries (plain_eq ch k)
      obtain ⟨q', hq', heq⟩ := Option.bind_eq_some_iff.mp hs
      cases heq
      rw [hq, Option.some.injEq] at hq'
      subst hq'
      exact ⟨⟨hsim' _ rfl rfl, h.accounted⟩, fun _ => rfl⟩
    | some fifoId =>
      obtain ⟨st, hloop, hcar, hst⟩ := hsim.colorLoop_eq hg hp
      obtain ⟨q, hq, hsim'⟩ := hsim.wpp_eq (b := b) hp hg hcar hst
      rw [MultiplexFifoChan.step, MultiplexVFifoEntry.commStart] at hs
      simp only [hloop, Option.bind_eq_bind, Option.bind_some] at hs
      obtain ⟨q', hq', heq⟩ := Option.bind_eq_some_iff.mp hs
      cases heq
      rw [hq, Option.some.injEq] at hq'
      subst hq'
      exact ⟨⟨hsim' _ rfl rfl, h.accounted⟩, fun _ => rfl⟩
  | entryFinish k =>
    have hk : k ≤ a.pipeline.length := by rw [← hsim.carries.areas.pipeline_eq]; exact hg
    rw [MultiplexFifoChan.step, MultiplexFifoEntry.commFinish, b.assert_of rfl] at hs
    exact h.entryFinish hk hs
  | outletStart fifoId k =>
    obtain ⟨o, ho, hk⟩ := hg
    exact h.outletStart ho hk hs
  | outletFinish k =>
    have hk : k ≤ a.consuming := by rw [← hsim.carries.areas.inConsume_eq]; exact hg
    obtain ⟨q, hq, hcar, hsize, hfresh⟩ := hsim.carries.fpp (b := b) hk
    rw [MultiplexFifoChan.step, MultiplexVFifoOutlet.commFinish, b.assert_of rfl] at hs
    simp only [readConsumeEventExpired, hq, Option.bind_eq_bind, Option.bind_some] at hs
    cases hs
    have hqfree := hcar.areas.freeCount_eq
    rw [hsize] at hqfree
    exact ⟨⟨hsim.moved hcar hsize hfresh (by omega) (fun _ => rfl) rfl rfl, h.accounted⟩, fun _ => rfl⟩

/-- An operation completes where all tokens that may enter the window belong to an
outlet. -/
theorem Invariant.completes {op : MultiplexOp T} (h : Invariant n m ch a) (hg : ch.Guarded op) (hp : a.Placed op)
    (hknown : ∀ t ∈ a.visible ++ a.pipeline, (ch.vOutlets.avail (ColorAccessor.get t)).isSome) :
    ∃ ch', ch.step b op = some ch' := by
  have hsim := h.simulates
  have hfree := hsim.carries.areas.freeCount_eq
  have hfits := hsim.carries.areas.fits
  cases op with
  | write entry limit i t =>
    rw [MultiplexFifoChan.step, MultiplexVFifoEntry.write, ringWrite, b.debugAssert_of hg.1]
    exact ⟨_, rfl⟩
  | entryStart entry k =>
    cases entry with
    | none =>
      obtain ⟨q, hq, _⟩ := hsim.wpp_eq (b := b) hp hg hsim.carries (plain_eq ch k)
      rw [MultiplexFifoChan.step, MultiplexFifoEntry.commStart, hq]
      exact ⟨_, rfl⟩
    | some fifoId =>
      obtain ⟨st, hloop, hcar, _⟩ := hsim.colorLoop_eq hg hp
      have hwpp := hcar.areas.wpp_eq (b := b) (n := k) hg
      simp only [MultiplexFifoChan.step, MultiplexVFifoEntry.commStart, MultiplexFifoEntry.commStart, hloop,
        QueueWithStorage.wpp, hwpp, Option.bind_eq_bind, Option.bind_some]
      exact ⟨_, rfl⟩
  | entryFinish k =>
    have hk : k ≤ a.pipeline.length := by rw [← hsim.carries.areas.pipeline_eq]; exact hg
    obtain ⟨q, _, _, _, heq⟩ := hsim.latencyExpired_eq (b := b) hk
    rw [MultiplexFifoChan.step, MultiplexFifoEntry.commFinish, b.assert_of rfl]
    show ∃ ch', ch.latencyExpired b k = some ch'
    rw [heq]
    split
    · exact ⟨_, rfl⟩
    · have hall : ∀ c ∈ (entering m k a).map ColorAccessor.get, (ch.vOutlets.avail c).isSome := by
        intro c hc
        obtain ⟨t, ht, rfl⟩ := List.mem_map.mp hc
        apply hknown
        have := List.mem_of_mem_take (List.mem_of_mem_drop ht)
        rw [List.mem_append] at this ⊢
        exact this.imp id List.mem_of_mem_take
      obtain ⟨vOutlets, hv⟩ := VOutletMap.foldlM_of_isSome hall
      rw [hv]
      exact ⟨_, rfl⟩
  | outletStart fifoId k =>
    obtain ⟨o, ho, hk⟩ := hg
    obtain ⟨q, vOutlets, _, _, _, havail, heq⟩ := h.outletStart_eq (b := b) ho hk
    have hall : ∀ c ∈ (following m fifoId k a).map ColorAccessor.get, (VOutletMap.avail vOutlets c).isSome := by
      intro c hc
      obtain ⟨t, ht, rfl⟩ := List.mem_map.mp hc
      rw [havail]
      split
      · rfl
      · apply hknown
        have := List.mem_of_mem_take (List.mem_of_mem_drop ht)
        exact List.mem_append_left _ ((removeFirst_sublist _ _).subset this)
    obtain ⟨vOutlets', hv⟩ := VOutletMap.foldlM_of_isSome hall
    rw [MultiplexFifoChan.step, heq, hv]
    exact ⟨_, rfl⟩
  | outletFinish k =>
    have hk : k ≤ a.consuming := by rw [← hsim.carries.areas.inConsume_eq]; exact hg
    obtain ⟨q, hq, _⟩ := hsim.carries.fpp (b := b) hk
    rw [MultiplexFifoChan.step, MultiplexVFifoOutlet.commFinish, b.assert_of rfl]
    simp only [readConsumeEventExpired, hq, Option.bind_eq_bind, Option.bind_some]
    exact ⟨_, rfl⟩

/-! ## Runs -/

omit [Token T] [ColorAccessor T] in
theorem avail_reset (vOutlets : VOutletMap ε) (d : Nat) :
    VOutletMap.avail (vOutlets.map fun p => (p.1, p.2.reset)) d = (vOutlets.avail d).map fun _ => 0 := by
  induction vOutlets with
  | nil => rfl
  | cons p vOutlets ih =>
    rw [VOutletMap.avail, VOutletMap.avail, List.map_cons, List.lookup_cons, List.lookup_cons]
    cases d == p.1 with
    | true => rfl
    | false => exact ih

omit [Token T] in
theorem doReset_eq {cs v p : Nat} (h : Areas ch.toQueueFRVWPtr cs v p) (hsize : ch.fsize = n + 1)
    (hl : ch.initialTokens.length ≤ n) (hwindow : ch.fifoOutOfOrder = m) (hm : m + 1 ≤ n)
    (hknown : ∀ t ∈ ch.initialTokens, (ch.vOutlets.avail (ColorAccessor.get t)).isSome) :
    ∃ ch', ch.doReset b = some ch' ∧ Simulates n m ch' (.initial ch.initialTokens) ∧
      ∀ d, ch'.vOutlets.avail d = (ch.vOutlets.avail d).map fun _ => ch.initialTokens.countP (colorIs d) := by
  obtain ⟨q, hq, hcar, hq'⟩ := QueueWithStorage.doReset_eq (b := b) (l := ch.initialTokens) h.rindex_lt (by omega)
  have hsim : ∀ ch' : MultiplexFifoChan T ε, ch'.toQueueWithStorage = q → ch'.fifoOutOfOrder = ch.fifoOutOfOrder →
      Simulates n m ch' (.initial ch.initialTokens) := by
    intro ch' hch hw
    subst hch
    exact ⟨hcar, hq'.trans hsize, hw.trans hwindow, hm, fun _ _ _ ht => nomatch ht⟩
  by_cases hne : ch.vOutlets = []
  · refine ⟨_, ?_, hsim { ch with
      toQueueWithStorage := q
      emmFree := ch.emmFree.reset.increasedCount q.freeCount
      emmAvailable := ch.emmAvailable.reset.increasedCount q.visibleCount } rfl rfl, fun d => ?_⟩
    · simp only [doReset, hq, withQueue, hne, Option.bind_eq_bind, Option.bind_some, ne_eq, not_true_eq_false, if_true,
        if_false]
      rfl
    · simp [hne, VOutletMap.avail]
  · obtain ⟨vOutlets, hv⟩ := VOutletMap.foldlM_of_isSome (m := ch.vOutlets.map fun p => (p.1, p.2.reset))
      (show ∀ c ∈ ch.initialTokens.map ColorAccessor.get, _ by
        intro c hc
        obtain ⟨t, ht, rfl⟩ := List.mem_map.mp hc
        rw [avail_reset, Option.isSome_map]
        exact hknown t ht)
    refine ⟨_, ?_, hsim { ch with
      toQueueWithStorage := q
      emmFree := ch.emmFree.reset.increasedCount q.freeCount
      emmAvailable := ch.emmAvailable.reset
      vOutlets := vOutlets } rfl rfl, fun d => ?_⟩
    · rw [List.foldlM_map] at hv
      simp only [doReset, hq, withQueue, hne, Option.bind_eq_bind, Option.bind_some, ne_eq, not_false_eq_true, if_true,
        if_false, hv]
      rfl
    · show vOutlets.avail d = _
      rw [avail_announced hv, avail_reset, Option.map_map]
      congr 1
      funext k
      exact Nat.zero_add _

omit [Token T] [ColorAccessor T] [SmocEvent ε] in
theorem avail_new (ids : List Nat) (d : Nat) :
    (VOutletMap.avail (ids.map fun fifoId => (fifoId, (⟨0, EventMapManager.empty⟩ : VOutlet ε))) d).isSome = true ↔
      d ∈ ids := by
  induction ids with
  | nil => simp [VOutletMap.avail]
  | cons c ids ih =>
    rw [VOutletMap.avail, List.map_cons, List.lookup_cons, List.mem_cons]
    by_cases hd : d = c
    · simp [hd]
    · rw [beq_false_of_ne hd]
      exact ih.trans (by simp [hd])

omit [Token T] in
theorem start_eq {l : List T} {ids : List Nat} {ch₀ : MultiplexFifoChan T ε} (hm : m + 1 ≤ n) (hl : l.length ≤ n)
    (hids : ∀ t ∈ l, ColorAccessor.get t ∈ ids) (hnew : new b n m l ids = some ch₀) :
    ∃ ch₁, ch₀.doReset b = some ch₁ ∧ Simulates n m ch₁ (.initial l) ∧
      ∀ d, ch₁.vOutlets.avail d = if d ∈ ids then some (l.countP (colorIs d)) else none := by
  obtain ⟨_, _, heq⟩ := Option.bind_eq_some_iff.mp hnew
  have hareas : Areas ch₀.toQueueFRVWPtr 0 0 0 := by
    cases heq
    exact Areas.resetQueue (q := QueueFRVWPtr.ofDepth n) (Nat.succ_pos n)
  have hsize : ch₀.fsize = n + 1 := by cases heq; rfl
  have hinit : ch₀.initialTokens = l := by cases heq; rfl
  have hwindow : ch₀.fifoOutOfOrder = m := by cases heq; rfl
  have hsome : ∀ d, (ch₀.vOutlets.avail d).isSome = true ↔ d ∈ ids := by
    cases heq
    exact avail_new ids
  obtain ⟨ch₁, hreset, hsim, havail⟩ := doReset_eq (b := b) hareas hsize (by rw [hinit]; exact hl) hwindow hm
    fun t ht => (hsome _).mpr (hids t (hinit ▸ ht))
  rw [hinit] at hsim havail
  refine ⟨ch₁, hreset, hsim, fun d => ?_⟩
  rw [havail]
  by_cases hd : d ∈ ids
  · obtain ⟨k, hk⟩ := Option.isSome_iff_exists.mp ((hsome d).mpr hd)
    rw [if_pos hd, hk]
    rfl
  · rw [if_neg hd, Option.not_isSome_iff_eq_none.mp fun h => hd ((hsome d).mp h)]
    rfl

def QueueStep (allowed : MultiplexFifoChan T ε → MultiplexQueue T → MultiplexOp T → Prop) (b : Build)
    (s s' : MultiplexFifoChan T ε × MultiplexQueue T) : Prop :=
  ∃ op, allowed s.1 s.2 op ∧ s.1.Guarded op ∧ s.2.Placed op ∧ s.1.step b op = some s'.1 ∧ s'.2 = s.2.step op

theorem Invariant.run {allowed : MultiplexFifoChan T ε → MultiplexQueue T → MultiplexOp T → Prop}
    {s s' : MultiplexFifoChan T ε × MultiplexQueue T} (h : Invariant n m s.1 s.2)
    (hr : Relation.ReflTransGen (QueueStep allowed b) s s') : Invariant n m s'.1 s'.2 := by
  induction hr with
  | refl => exact h
  | tail _ hstep ih =>
    obtain ⟨op, _, hg, hp, hs, ha⟩ := hstep
    rw [ha]
    exact (ih.step hg hp hs).1

/-- Tokens are committed in the colour of an existing outlet. -/
def Known (ch : MultiplexFifoChan T ε) (a : MultiplexQueue T) : MultiplexOp T → Prop
  | .entryStart entry k => ∀ t ∈ a.commits entry k, (ch.vOutlets.lookup (ColorAccessor.get t)).isSome
  | _ => True

def Owned (ch : MultiplexFifoChan T ε) (a : MultiplexQueue T) : Prop :=
  ∀ t ∈ a.visible ++ a.pipeline, (ch.vOutlets.avail (ColorAccessor.get t)).isSome

omit [Token T] [SmocEvent ε] in
theorem Owned.step {op : MultiplexOp T} (h : Owned ch a) (hk : Known ch a op)
    (hsome : ∀ d, (ch'.vOutlets.avail d).isSome = (ch.vOutlets.avail d).isSome) : Owned ch' (a.step op) := by
  intro t ht
  rw [hsome]
  cases op with
  | write | outletFinish => exact h t ht
  | entryStart entry k =>
    have ht : t ∈ a.visible ++ (a.pipeline ++ a.commits entry k) := ht
    rw [← List.append_assoc, List.mem_append] at ht
    rcases ht with ht | ht
    · exact h t ht
    · rw [VOutletMap.avail, Option.isSome_map]
      exact hk t ht
  | entryFinish k =>
    have ht : t ∈ (a.visible ++ a.pipeline.take k) ++ a.pipeline.drop k := ht
    rw [List.append_assoc, List.take_append_drop] at ht
    exact h t ht
  | outletStart fifoId k =>
    have ht : t ∈ removeFirst (colorIs fifoId) k a.visible ++ a.pipeline := ht
    apply h
    rw [List.mem_append] at ht ⊢
    exact ht.imp (fun ht => (removeFirst_sublist _ _).subset ht) id

theorem Owned.run {s s' : MultiplexFifoChan T ε × MultiplexQueue T} (h : Owned s.1 s.2) (hi : Invariant n m s.1 s.2)
    (hr : Relation.ReflTransGen (QueueStep Known b) s s') : Owned s'.1 s'.2 := by
  induction hr with
  | refl => exact h
  | tail hrun hstep ih =>
    obtain ⟨op, hk, hg, hp, hs, ha⟩ := hstep
    rw [ha]
    exact ih.step hk ((hi.run hrun).step hg hp hs).2

/-- The number of tokens of a colour in the window, read off the ring. -/
def windowCount (ch : MultiplexFifoChan T ε) (color : Nat) : Nat :=
  (List.range (min (ch.fifoOutOfOrder + 1) ch.visibleCount)).countP fun i =>
    (ch.storage (add ch.fsize ch.rindex i)).any (colorIs color)

omit [Token T] [SmocEvent ε] in
theorem windowCount_eq (h : Simulates n m ch a) (color : Nat) :
    ch.windowCount color = (a.visible.take (m + 1)).countP (colorIs color) := by
  have hcount : ∀ k, k ≤ a.visible.length → (List.range k).countP (fun i =>
      (ch.storage (add ch.fsize ch.rindex i)).any (colorIs color)) = (a.visible.take k).countP (colorIs color) := by
    intro k
    induction k with
    | zero => exact fun _ => rfl
    | succ k ih =>
      intro hk
      rw [List.range_succ, List.countP_append, ih (by omega), List.take_add_one, List.countP_append,
        List.countP_singleton, h.carries.get_visible (show k < a.visible.length by omega)]
      congr 1
      rw [List.getElem?_eq_getElem (by omega)]
      simp
  rw [windowCount, h.window_eq, h.carries.areas.visibleCount_eq, hcount _ (Nat.min_le_right _ _),
    ← List.take_eq_take_min]

omit [Token T] [SmocEvent ε] in
theorem invariant_of_le {l : List T} {ids : List Nat} (h : Simulates n m ch (.initial l))
    (havail : ∀ d, ch.vOutlets.avail d = if d ∈ ids then some (l.countP (colorIs d)) else none)
    (hl : l.length ≤ m + 1) : Invariant n m ch (.initial l) := by
  refine ⟨h, fun d k hk => ?_⟩
  rw [havail] at hk
  show k = (l.take (m + 1)).countP (colorIs d)
  rw [List.take_of_length_le hl]
  split at hk
  · exact (Option.some.inj hk).symm
  · cases hk

omit [Token T] [SmocEvent ε] in
theorem owned_initial {l : List T} {ids : List Nat} (hids : ∀ t ∈ l, ColorAccessor.get t ∈ ids)
    (havail : ∀ d, ch.vOutlets.avail d = if d ∈ ids then some (l.countP (colorIs d)) else none) :
    Owned ch (.initial l) := by
  intro t ht
  rw [havail, if_pos]
  · rfl
  · apply hids
    simpa [MultiplexQueue.initial] using ht

/-- In every run the counters are right, the subtraction in `consume` does not
underflow and operations complete, iff a reset puts no initial token outside the
window. -/
theorem window_accounting {l : List T} {ids : List Nat} {ch₀ : MultiplexFifoChan T ε} (hm : m + 1 ≤ n)
    (hl : l.length ≤ n) (hids : ∀ t ∈ l, ColorAccessor.get t ∈ ids) (hnew : new b n m l ids = some ch₀) :
    ∃ ch₁, ch₀.doReset b = some ch₁ ∧
      ((∀ ch a, Relation.ReflTransGen (QueueStep Known b) (ch₁, .initial l) (ch, a) →
        (∀ d o, ch.vOutlets.lookup d = some o → o.countAvailable = ch.windowCount d) ∧
        (∀ d k, ch.Guarded (.outletStart d k) → k ≤ ch.fifoOutOfOrder + 1) ∧
        ∀ op, ch.Guarded op → a.Placed op → ∃ ch', ch.step b op = some ch') ↔ l.length ≤ m + 1) := by
  obtain ⟨ch₁, hreset, hsim₁, havail⟩ := start_eq hm hl hids hnew
  refine ⟨ch₁, hreset, fun h => ?_, fun hlen ch a hrun => ?_⟩
  · by_contra hlen
    obtain ⟨hacc, _⟩ := h ch₁ _ .refl
    -- the first initial token outside the window is announced but not in it
    obtain ⟨t, ht⟩ : ∃ t, l[m + 1]? = some t := ⟨l[m + 1], List.getElem?_eq_getElem _⟩
    have hmem : t ∈ l.drop (m + 1) := by
      rw [List.drop_eq_getElem_cons (by omega)]
      exact List.mem_cons.mpr (.inl (List.getElem?_eq_some_iff.mp ht).2.symm)
    have hc := havail (ColorAccessor.get t)
    rw [if_pos (hids t (List.mem_of_mem_drop hmem))] at hc
    obtain ⟨o, ho, hcount⟩ := Option.map_eq_some_iff.mp hc
    have hwindow := hacc _ o ho
    rw [windowCount_eq hsim₁, hcount, countP_take_drop _ l (m + 1)] at hwindow
    have hpos : 0 < (l.drop (m + 1)).countP (colorIs (ColorAccessor.get t)) :=
      List.countP_pos_iff.mpr ⟨t, hmem, by simp [colorIs]⟩
    have hvis : (MultiplexQueue.initial l).visible = l := rfl
    rw [hvis] at hwindow
    omega
  · have hinv₁ : Invariant n m ch₁ (.initial l) := invariant_of_le hsim₁ havail hlen
    have hinv : Invariant n m ch a := hinv₁.run hrun
    have howned : Owned ch a := (owned_initial hids havail).run hinv₁ hrun
    refine ⟨fun d o ho => ?_, fun d k hg => ?_, fun op hg hp => hinv.completes hg hp howned⟩
    · rw [windowCount_eq hinv.simulates]
      exact hinv.accounted d _ (by rw [VOutletMap.avail, ho]; rfl)
    · obtain ⟨o, ho, hk⟩ := hg
      have hcount : o.countAvailable = (a.visible.take (m + 1)).countP (colorIs d) :=
        hinv.accounted d _ (by rw [VOutletMap.avail, ho]; rfl)
      have hle := List.countP_le_length (p := colorIs d) (l := a.visible.take (m + 1))
      rw [List.length_take] at hle
      rw [hinv.simulates.window_eq]
      omega

theorem window_accounting_two :
    ∃ ch₀ ch₁ : MultiplexFifoChan (Nat × Int) Bool, new .checked 3 1 [(0, 5), (1, 6)] [0, 1] = some ch₀ ∧
      ch₀.doReset .checked = some ch₁ ∧ ∀ d o, ch₁.vOutlets.lookup d = some o → o.countAvailable = ch₁.windowCount d := by
  obtain ⟨ch₀, hnew⟩ : ∃ ch₀ : MultiplexFifoChan (Nat × Int) Bool,
      new .checked 3 1 [(0, 5), (1, 6)] [0, 1] = some ch₀ := Option.isSome_iff_exists.mp (by decide +kernel)
  obtain ⟨ch₁, hreset, hiff⟩ := window_accounting (by decide) (by decide) (by decide) hnew
  exact ⟨ch₀, ch₁, hnew, hreset, (hiff.mpr (by decide) ch₁ _ .refl).1⟩

/-- Two initial tokens where the window has one. -/
theorem reset_beyond_window :
    ((new .checked 3 0 [(0, 5), (0, 6)] [0] : Option (MultiplexFifoChan (Nat × Int) Bool)) >>= (·.doReset .checked)).map
      (fun ch => (MultiplexVFifoOutlet.numAvailable ch 0, ch.windowCount 0)) = some (some 2, 1) := by decide +kernel

end MultiplexFifoChan

end SysteMoC
