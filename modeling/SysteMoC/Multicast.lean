import SysteMoC.FiringSound
import SysteMoC.Multireader
import SysteMoC.Pointwise

/-!
# Output port

An output port writes into its first channel; a commit copies the tokens to the
others before any of them moves its write index.
-/

namespace SysteMoC

open Cyclic FifoChan

/-- `interfaces` in binding order; `portAccess` is the access of the first one. -/
structure PortOut (T ε : Type) where
  interfaces : List (FifoChan T ε)
  /-- For a threshold, the channels whose events of that threshold are in its and-list. -/
  blockEventMap : List (Nat × List Nat)

section
variable {T ε : Type} [Token T]

/-- `access[i] = (*portAccess)[i]` for `k` tokens from the `i`-th on. -/
def copyTokens (b : Build) (limit : Nat) : Nat → Nat → FifoChan T ε → FifoChan T ε →
    Option (FifoChan T ε × FifoChan T ε)
  | _, 0, head, ch => some (head, ch)
  | i, k + 1, head, ch => do
    b.debugAssert (i < limit)
    let (t, st) ← head.storage.get (ringSlot head.fsize head.windex i)
    let ch ← FifoEntry.write b ch limit i t
    copyTokens b limit (i + 1) k { head with storage := st } ch

def copyToAll (b : Build) (limit k : Nat) : FifoChan T ε → List (FifoChan T ε) →
    Option (FifoChan T ε × List (FifoChan T ε))
  | head, [] => some (head, [])
  | head, ch :: chs => do
    let (head, ch) ← copyTokens b limit 0 k head ch
    let (head, chs) ← copyToAll b limit k head chs
    return (head, ch :: chs)

end

namespace PortOut

variable {T ε : Type}

def write (b : Build) (limit : Nat) (p : PortOut T ε) (i : Nat) (t : T) : Option (PortOut T ε) :=
  match p.interfaces with
  | [] => none
  | ch :: chs => do
    let ch ← FifoEntry.write b ch limit i t
    return { p with interfaces := ch :: chs }

def duplicateOutput [Token T] (b : Build) (limit : Nat) (p : PortOut T ε) (n : Nat) : Option (PortOut T ε) :=
  match p.interfaces with
  | [] => none
  | ch :: chs => do
    let (ch, chs) ← copyToAll b limit n ch chs
    return { p with interfaces := ch :: chs }

def numFree (p : PortOut T ε) : Nat := p.interfaces.foldl (fun n ch => min n (FifoEntry.numFree ch)) (2 ^ 64 - 1)

variable [SmocEvent ε]

/-- `blockEvent(n)` while the port is elaborated. -/
def blockEvent (b : Build) (p : PortOut T ε) (n : Nat) : Option (PortOut T ε) :=
  if 1 < p.interfaces.length then
    match p.blockEventMap.lookup n with
    | some _ => some p
    | none => do
      let chs ← p.interfaces.mapM fun ch => FifoEntry.spaceAvailableEvent b ch n
      return ⟨chs, (n, List.range chs.length) :: p.blockEventMap⟩
  else do
    b.assert (p.interfaces.length = 1)
    let chs ← p.interfaces.mapM fun ch => FifoEntry.spaceAvailableEvent b ch n
    return { p with interfaces := chs }

def blockEventActive (p : PortOut T ε) (n : Nat) : Bool :=
  if 1 < p.interfaces.length then
    ((p.blockEventMap.lookup n).getD (List.range p.interfaces.length)).all fun i =>
        (p.interfaces[i]?).any fun ch => ch.emmSpace.isActiveAt n
  else p.interfaces.all fun ch => ch.emmSpace.isActiveAt n

variable [Token T]

def commStart (b : Build) (limit : Nat) (p : PortOut T ε) (n : Nat) : Option (PortOut T ε) := do
  let p ← p.duplicateOutput b limit n
  let chs ← p.interfaces.mapM fun ch => FifoEntry.commStart b ch n
  return { p with interfaces := chs }

def commFinish (b : Build) (p : PortOut T ε) (n : Nat) : Option (PortOut T ε) := do
  let chs ← p.interfaces.mapM fun ch => FifoEntry.commFinish b ch n false
  return { p with interfaces := chs }

def commExec (b : Build) (limit : Nat) (p : PortOut T ε) (n : Nat) : Option (PortOut T ε) := do
  let p ← p.duplicateOutput b limit n
  let chs ← p.interfaces.mapM fun ch => ChanKind.fifo.commExecOut b ch n
  return { p with interfaces := chs }

end PortOut

/-! ## What a commit does to a channel -/

/-- What the slots behind the read index hold, visible or not. -/
def FifoChan.contents {T ε : Type} (ch : FifoChan T ε) : List (Option T) :=
  (List.range ch.usedCount).map fun i => ch.storage (add ch.fsize ch.rindex i)

section
variable {T ε : Type} [SmocEvent ε]

/-- The tokens are appended and nothing else is different but the space event and the token id. -/
structure Appends (ts : List T) (ch ch' : FifoChan T ε) : Prop where
  contents : ch'.contents = ch.contents ++ ts.map some
  storage : ∀ x, (∀ i < ts.length, x ≠ add ch.fsize ch.windex i) → ch'.storage x = ch.storage x
  space : ch'.emmSpace.Tracks (ch.freeCount - ts.length)
  others : ch' = { ch with
    windex := add ch.fsize ch.windex ts.length
    storage := ch'.storage
    tokenId := ch.tokenId + UInt64.ofNat ts.length
    emmSpace := ch'.emmSpace }

/-- `n` more tokens are visible. -/
structure Announces (n : Nat) (ch ch' : FifoChan T ε) : Prop where
  contents : ch'.contents = ch.contents
  visible : ch'.visibleCount = ch.visibleCount + n
  data : ch'.emmData.Tracks (ch.visibleCount + n)
  others : ch' = { ch with vindex := add ch.fsize ch.vindex n, emmData := ch'.emmData }

end

/-! ## One channel -/

section
variable {T ε : Type} {b : Build} {ch head : FifoChan T ε} {c v p c' v' p' k limit : Nat} {ts : List T}

theorem copyTokens_eq [Token T] (hhead : Areas head.toQueueFRVWPtr c v p) (hheld : Holds head.fsize head.storage head.windex ts)
    (hlen : ts.length ≤ head.freeCount) (hlimit : ts.length ≤ limit) : ∀ {k i : Nat} {ch : FifoChan T ε},
    i + k = ts.length →
    copyTokens b limit i k head ch = (FifoEntry.writeTokens b ch limit i (ts.drop i)).map fun ch => (head, ch) := by
  have hcount := hhead.freeCount_eq
  intro k
  induction k with
  | zero =>
    intro i ch hi
    rw [List.drop_of_length_le (by omega)]
    rfl
  | succ k ih =>
    intro i ch hi
    have hlt : i < ts.length := by omega
    have hget : head.storage.get (ringSlot head.fsize head.windex i) = some (ts[i], head.storage) := by
      have hslot := hheld i hlt
      rw [List.getElem?_eq_getElem hlt] at hslot
      rw [ringSlot_eq hhead.windex_lt (by omega), Storage.get, hslot]
    rw [copyTokens, b.debugAssert_of (by omega), hget, List.drop_eq_getElem_cons hlt, FifoEntry.writeTokens]
    simp only [Option.bind_eq_bind, Option.bind_some, Option.map_bind]
    congr
    funext ch
    exact ih (by omega)

theorem contents_eq {l : List (Option T)} (h : Areas ch.toQueueFRVWPtr c v p) (hl : l.length = v + p)
    (hslots : ∀ i (hi : i < l.length), ch.storage (add ch.fsize ch.rindex i) = l[i]) : ch.contents = l := by
  apply List.ext_getElem
  · rw [FifoChan.contents, List.length_map, List.length_range, h.usedCount_eq, hl]
  · intro i _ hi
    simp only [FifoChan.contents, List.getElem_map, List.getElem_range]
    exact hslots i hi

variable [SmocEvent ε] [LawfulEvent ε] {n : Nat} {st : Storage T}

theorem commStart_appends (h : Counted n ch c v p) (hts : ts.length ≤ ch.freeCount)
    (hheld : Holds ch.fsize st ch.windex ts)
    (hframe : ∀ x, (∀ i < ts.length, x ≠ add ch.fsize ch.windex i) → st x = ch.storage x) :
    ∃ ch', FifoEntry.commStart b { ch with storage := st } ts.length = some ch' ∧ Appends ts ch ch' ∧
      Counted n ch' c v (p + ts.length) := by
  have ha := h.areas
  have hfits := ha.fits
  have hcount := ha.freeCount_eq
  have hsize := h.fsize_eq
  have hareas := ha.wpp hts
  let q : QueueFRVWPtr := { ch.toQueueFRVWPtr with windex := add ch.fsize ch.windex ts.length }
  have hfree : q.freeCount = n - (c + v + (p + ts.length)) := by
    rw [hareas.freeCount_eq]
    show ch.fsize - 1 - _ = _
    rw [hsize, Nat.add_sub_cancel]
  have hspace : (ch.emmSpace.decreasedCount q.freeCount).Tracks (n - (c + v + (p + ts.length))) := by
    rw [hfree]
    exact h.space.decreasedCount (by omega)
  refine ⟨{ ch with
    toQueueWithStorage := { toQueueFRVWPtr := q, storage := st }
    tokenId := ch.tokenId + UInt64.ofNat ts.length
    emmSpace := ch.emmSpace.decreasedCount q.freeCount }, ?_, ⟨?_, hframe, ?_, rfl⟩,
    ⟨hareas, hsize, h.initial_le, h.data, hspace⟩⟩
  · simp only [FifoEntry.commStart, QueueWithStorage.wpp, ha.wpp_eq (b := b) hts, Option.bind_eq_bind, Option.bind_some]
    rfl
  · have hold : ∀ i < v + p, st (add ch.fsize ch.rindex i) = ch.storage (add ch.fsize ch.rindex i) := by
      intro i hi
      apply hframe
      intro j hj heq
      rw [ha.windex_rindex, add_add] at heq
      have := (add_inj ha.rindex_lt (by omega) (by omega)).mp heq
      omega
    have hlen : ch.contents.length = v + p := by
      rw [FifoChan.contents, List.length_map, List.length_range, ha.usedCount_eq]
    refine contents_eq hareas (by rw [List.length_append, hlen, List.length_map, Nat.add_assoc]) fun i hi => ?_
    rw [List.length_append, hlen, List.length_map] at hi
    rcases Nat.lt_or_ge i (v + p) with hi' | hi'
    · rw [List.getElem_append_left (hlen ▸ hi')]
      simp only [FifoChan.contents, List.getElem_map, List.getElem_range]
      exact hold i hi'
    · have hnew := hheld (i - (v + p)) (by omega)
      rw [ha.windex_rindex, add_add, show v + p + (i - (v + p)) = i by omega,
        List.getElem?_eq_getElem (by omega)] at hnew
      rw [List.getElem_append_right (hlen ▸ hi')]
      simp only [List.getElem_map, hlen]
      exact hnew
  · rw [hcount, hsize, show n + 1 - 1 - (c + v + p) - ts.length = n - (c + v + (p + ts.length)) by omega]
    exact hspace

theorem commFinish_announces [Token T] (h : Counted n ch c v p) (hk : k ≤ p) :
    ∃ ch', FifoEntry.commFinish b ch k false = some ch' ∧ Announces k ch ch' ∧ Counted n ch' c (v + k) (p - k) := by
  have ha := h.areas
  have hareas := ha.vpp hk
  let q : QueueFRVWPtr := { ch.toQueueFRVWPtr with vindex := add ch.fsize ch.vindex k }
  have hvisible : q.visibleCount = v + k := hareas.visibleCount_eq
  have hdata : (ch.emmData.increasedCount q.visibleCount).Tracks (v + k) := by
    rw [hvisible]
    exact h.data.increasedCount (Nat.le_add_right v k)
  refine ⟨{ ch with
    toQueueWithStorage := { toQueueFRVWPtr := q, storage := ch.storage }
    emmData := ch.emmData.increasedCount q.visibleCount }, ?_, ⟨rfl, ?_, ?_, rfl⟩,
    ⟨hareas, h.fsize_eq, h.initial_le, hdata, ?_⟩⟩
  · simp only [FifoEntry.commFinish, latencyExpired, QueueWithStorage.vpp, ha.vpp_eq (b := b) hk, Bool.not_false, if_true,
      Option.bind_eq_bind, Option.bind_some]
    rfl
  · rw [ha.visibleCount_eq]
    exact hvisible
  · rw [ha.visibleCount_eq]
    exact hdata
  · rw [show c + (v + k) + (p - k) = c + v + p by omega]
    exact h.space

end

/-! ## All channels of a port -/

/-- The last value written to each index, where `f` was written before. -/
def lastWritten {T : Type} (f : Nat → Option T) (ws : List (Nat × T)) : Nat → Option T :=
  ws.foldl (fun f w => Function.update f w.1 (some w.2)) f

section
variable {T ε : Type} {b : Build} {n limit : Nat} {ts : List T} {head ch ch' : FifoChan T ε}

/-- The tokens are in the first free slots. -/
def Staged (ts : List T) (ch ch' : FifoChan T ε) : Prop :=
  ∃ st, ch' = { ch with storage := st } ∧ Holds ch.fsize st ch.windex ts ∧
    ∀ x, (∀ i < ts.length, x ≠ add ch.fsize ch.windex i) → st x = ch.storage x

/-- Each write leaves its value in the slot of its index, whatever was written there before. -/
theorem writes_eq {c v p m : Nat} (h : Areas ch.toQueueFRVWPtr c v p) (hm : m ≤ ch.freeCount) (hlimit : m ≤ limit)
    {ws : List (Nat × T)} : ∀ (f : Nat → Option T) (st : Storage T), (∀ w ∈ ws, w.1 < m) →
    (∀ i < m, ∀ t, f i = some t → st (add ch.fsize ch.windex i) = some t) →
    ∃ st', ws.foldlM (fun ch w => FifoEntry.write b ch limit w.1 w.2) { ch with storage := st } =
        some { ch with storage := st' } ∧
      (∀ i < m, ∀ t, lastWritten f ws i = some t →
        st' (add ch.fsize ch.windex i) = some t) ∧
      ∀ x, (∀ i < m, x ≠ add ch.fsize ch.windex i) → st' x = st x := by
  have hcount := h.freeCount_eq
  have hw := h.windex_lt
  induction ws with
  | nil => exact fun _ _ _ hst => ⟨_, rfl, hst, fun _ _ => rfl⟩
  | cons w ws ih =>
    obtain ⟨j, t⟩ := w
    intro f st hws hst
    have hj : j < m := hws (j, t) List.mem_cons_self
    have hput : FifoEntry.write b { ch with storage := st } limit j t =
        some { ch with storage := st.put (add ch.fsize ch.windex j) t } := by
      rw [FifoEntry.write, ringWrite, b.debugAssert_of (by omega), ringSlot_eq hw (by omega)]
      rfl
    obtain ⟨st', hst', hlast, hframe⟩ := ih (Function.update f j (some t))
      (st.put (add ch.fsize ch.windex j) t) (fun w hw => hws w (List.mem_cons_of_mem _ hw)) (by
        intro i hi t' ht'
        by_cases hij : i = j
        · subst hij
          rw [Function.update_self] at ht'
          rw [← ht']
          exact Function.update_self _ _ _
        · rw [Function.update_of_ne hij] at ht'
          rw [← hst i hi t' ht']
          exact update_other hw (by omega) (by omega) hij)
    refine ⟨st', ?_, hlast, fun x hx => ?_⟩
    · rw [List.foldlM_cons, hput]
      exact hst'
    · rw [hframe x hx]
      exact Function.update_of_ne (hx j hj) _ _

theorem writes_staged {c v p : Nat} {ws : List (Nat × T)} (h : Areas ch.toQueueFRVWPtr c v p) (hn : ts.length ≤ ch.freeCount)
    (hlimit : ts.length ≤ limit) (hws : ∀ w ∈ ws, w.1 < ts.length) (hlast : ∀ i < ts.length,
        lastWritten (fun _ => none) ws i = ts[i]?) :
    ∃ ch', ws.foldlM (fun ch w => FifoEntry.write b ch limit w.1 w.2) ch = some ch' ∧ Staged ts ch ch' := by
  obtain ⟨st, hst, hwritten, hframe⟩ := writes_eq (b := b) h hn hlimit (fun _ => none) ch.storage hws
    fun _ _ _ ht => nomatch ht
  refine ⟨{ ch with storage := st }, hst, st, rfl, fun i hi => ?_, hframe⟩
  rw [List.getElem?_eq_getElem hi]
  apply hwritten i hi
  rw [← List.getElem?_eq_getElem hi]
  exact hlast i hi

theorem copyToAll_staged [Token T] {c v p : Nat} (head : FifoChan T ε) (chs : List (FifoChan T ε))
    (hhead : Areas head.toQueueFRVWPtr c v p)
    (hheld : Holds head.fsize head.storage head.windex ts) (hn : ts.length ≤ head.freeCount) (hlimit : ts.length ≤ limit)
    (hchs : ∀ ch ∈ chs, (∃ c v p, Areas ch.toQueueFRVWPtr c v p) ∧ ts.length ≤ ch.freeCount) :
    ∃ chs', copyToAll b limit ts.length head chs = some (head, chs') ∧ List.Forall₂ (Staged ts) chs chs' := by
  induction chs with
  | nil => exact ⟨[], rfl, .nil⟩
  | cons ch chs ih =>
    obtain ⟨⟨c', v', p', ha⟩, hfree⟩ := hchs ch List.mem_cons_self
    obtain ⟨chs', hall, hstaged⟩ := ih fun ch hch => hchs ch (List.mem_cons_of_mem _ hch)
    obtain ⟨st, hst, hholds, hframe⟩ := FifoEntry.writeTokens_eq (b := b) (i := 0) limit ch ha
      (by rw [Nat.zero_add]; exact hlimit) (by rw [Nat.zero_add]; exact hfree)
    rw [Cyclic.add_zero ha.windex_lt] at hholds
    refine ⟨{ ch with storage := st } :: chs', ?_, .cons ⟨st, rfl, hholds, fun x hx => hframe x fun j hj => ?_⟩ hstaged⟩
    · rw [copyToAll, copyTokens_eq hhead hheld hn hlimit (Nat.zero_add _), List.drop_zero, hst]
      simp only [Option.map_some, Option.bind_eq_bind, Option.bind_some, hall]
      rfl
    · rw [Nat.zero_add]
      exact hx j hj

end

/-! ## Elaborated ports -/

section
variable {T ε : Type} [Token T] [SmocEvent ε]

/-- A channel that starts after further requests and runs. -/
def Runs (b : Build) (ch ch' : FifoChan T ε) : Prop :=
  ∃ (rs : List EventRequest) (ch₁ ch₂ : FifoChan T ε), rs.foldlM (request b) ch = some ch₁ ∧ ch₁.doReset b = some ch₂ ∧
    Relation.ReflTransGen (GuardedStep b) ch₂ ch'

/-- Operations that leave `n` tokens in the pipeline to be finished. -/
def LeavesPipeline (b : Build) (n : Nat) (ch ch' : FifoChan T ε) : Prop :=
  ∃ op, op ≠ .doReset ∧ (∀ k dropped, op = .entryFinish k dropped → k + n ≤ ch.pipelineCount) ∧ ch.Guarded op ∧
    ch.Fits op ∧ ch.step b op = some ch'

/-- The states of a port that was bound to some channels and asked for the thresholds `ns`. -/
def PortOut.Elaborated (b : Build) (ns : List Nat) (p : PortOut T ε) : Prop :=
  ∃ chs p₁, chs ≠ [] ∧
    (∀ ch ∈ chs, ∃ n l, ∃ rs : List EventRequest, l.length ≤ n ∧ rs.foldlM (request b) (.new n l) = some ch) ∧
    ns.foldlM (PortOut.blockEvent b) ⟨chs, []⟩ = some p₁ ∧ p.blockEventMap = p₁.blockEventMap ∧
    List.Forall₂ (Runs b) p₁.interfaces p.interfaces

end

section
variable {T ε : Type} [Token T] [SmocEvent ε] [LawfulEvent ε] {b : Build} {ns : List Nat} {p : PortOut T ε}
  {ch ch' : FifoChan T ε} {n : Nat}

/-- What `blockEvent` keeps while a port is elaborated. -/
structure Cached (b : Build) (ns : List Nat) (p : PortOut T ε) : Prop where
  nonempty : p.interfaces ≠ []
  requested : ∀ ch ∈ p.interfaces, (∃ n l, ∃ rs : List EventRequest, l.length ≤ n ∧ rs.foldlM (request b) (.new n l) = some ch) ∧
    ∀ n ∈ ns, n ∈ ch.emmSpace.thresholds
  andList : ∀ n l, p.blockEventMap.lookup n = some l → l = List.range p.interfaces.length ∧
    ∀ ch ∈ p.interfaces, n ∈ ch.emmSpace.thresholds

omit [Token T] [LawfulEvent ε] in
theorem Cached.requestAll {chs : List (FifoChan T ε)} (h : Cached b ns p)
    (hs : p.interfaces.mapM (fun ch => FifoEntry.spaceAvailableEvent b ch n) = some chs) :
    chs.length = p.interfaces.length ∧ ∀ ch ∈ chs,
      (∃ n l, ∃ rs : List EventRequest, l.length ≤ n ∧ rs.foldlM (request b) (.new n l) = some ch) ∧
      n ∈ ch.emmSpace.thresholds ∧ (∀ k ∈ ns, k ∈ ch.emmSpace.thresholds) ∧
      ∀ k l, p.blockEventMap.lookup k = some l → k ∈ ch.emmSpace.thresholds := by
  have hall := Pointwise.forall₂_of_mapM hs
  refine ⟨hall.length_eq.symm, fun ch' hch' => ?_⟩
  obtain ⟨ch, hch, hreq⟩ := (Pointwise.forall₂_mem hall).2 ch' hch'
  obtain ⟨⟨depth, l, rs, hl, hrs⟩, hns⟩ := h.requested ch hch
  obtain ⟨_, _, _, hmem⟩ := request_queue (r := .space n) hreq
  refine ⟨⟨depth, l, rs ++ [.space n], hl, ?_⟩, (hmem n).mpr (.inl rfl), fun k hk => (hmem k).mpr (.inr (hns k hk)),
    fun k l hk => (hmem k).mpr (.inr ((h.andList k l hk).2 ch hch))⟩
  rw [List.foldlM_append, hrs, Option.bind_eq_bind, Option.bind_some, List.foldlM_cons]
  rw [show ch.request b (.space n) = some ch' from hreq]
  rfl

omit [Token T] [LawfulEvent ε] in
theorem Cached.blockEvent {p' : PortOut T ε} (h : Cached b ns p) (hs : p.blockEvent b n = some p') :
    Cached b (ns ++ [n]) p' := by
  have hnew : ∀ {ch : FifoChan T ε}, n ∈ ch.emmSpace.thresholds → (∀ k ∈ ns, k ∈ ch.emmSpace.thresholds) →
      ∀ k ∈ ns ++ [n], k ∈ ch.emmSpace.thresholds := by
    intro ch hn hns k hk
    rcases List.mem_append.mp hk with hk | hk
    · exact hns k hk
    · rw [List.mem_singleton.mp hk]
      exact hn
  have hne : ∀ {chs : List (FifoChan T ε)}, chs.length = p.interfaces.length → chs ≠ [] := by
    rintro _ hlen rfl
    exact h.nonempty (List.length_eq_zero_iff.mp hlen.symm)
  rw [PortOut.blockEvent] at hs
  split at hs
  · split at hs
    · rename_i l hl
      cases hs
      exact ⟨h.nonempty, fun ch hch => ⟨(h.requested ch hch).1, hnew ((h.andList n l hl).2 ch hch)
        (h.requested ch hch).2⟩, h.andList⟩
    · obtain ⟨chs, hchs, heq⟩ := Option.bind_eq_some_iff.mp hs
      cases heq
      obtain ⟨hlen, hall⟩ := h.requestAll hchs
      refine ⟨hne hlen, fun ch hch => ⟨(hall ch hch).1, hnew (hall ch hch).2.1 (hall ch hch).2.2.1⟩, fun k l hk => ?_⟩
      rw [List.lookup_cons] at hk
      split at hk
      · rename_i hkn
        rw [beq_iff_eq] at hkn
        rw [← Option.some.inj hk, hkn]
        exact ⟨rfl, fun ch hch => (hall ch hch).2.1⟩
      · refine ⟨?_, fun ch hch => (hall ch hch).2.2.2 k l hk⟩
        rw [hlen]
        exact (h.andList k l hk).1
  · obtain ⟨_, _, hs⟩ := Option.bind_eq_some_iff.mp hs
    obtain ⟨chs, hchs, heq⟩ := Option.bind_eq_some_iff.mp hs
    cases heq
    obtain ⟨hlen, hall⟩ := h.requestAll hchs
    refine ⟨hne hlen, fun ch hch => ⟨(hall ch hch).1, hnew (hall ch hch).2.1 (hall ch hch).2.2.1⟩, fun k l hk => ?_⟩
    refine ⟨?_, fun ch hch => (hall ch hch).2.2.2 k l hk⟩
    rw [hlen]
    exact (h.andList k l hk).1

omit [Token T] [LawfulEvent ε] in
theorem Cached.blockEvents {ms : List Nat} : ∀ {ns : List Nat} {p p' : PortOut T ε}, Cached b ns p →
    ms.foldlM (PortOut.blockEvent b) p = some p' → Cached b (ns ++ ms) p' := by
  induction ms with
  | nil =>
    intro ns p p' h hs
    cases hs
    rw [List.append_nil]
    exact h
  | cons m ms ih =>
    intro ns p p' h hs
    rw [List.foldlM_cons] at hs
    obtain ⟨p₁, h₁, hs⟩ := Option.bind_eq_some_iff.mp hs
    rw [← List.singleton_append, ← List.append_assoc]
    exact ih (h.blockEvent h₁) hs

theorem Runs.counted (h : Runs b ch ch') (hnew : ∃ n l, ∃ rs : List EventRequest, l.length ≤ n ∧
    rs.foldlM (request b) (.new n l) = some ch) :
    (∃ n c v p, Counted n ch' c v p) ∧ ∀ k ∈ ch.emmSpace.thresholds, k ∈ ch'.emmSpace.thresholds := by
  obtain ⟨depth, l, rs₀, hl, hreq₀⟩ := hnew
  obtain ⟨rs, ch₁, ch₂, hreq, hreset, hrun⟩ := h
  obtain ⟨hq₀, hi₀, _⟩ := requests_queue hreq₀
  obtain ⟨hq, hi, _, _, _, hkept⟩ := requests_queue hreq
  have hareas : Areas ch₁.toQueueFRVWPtr 0 0 0 := by
    rw [hq, hq₀]
    exact areas_new depth l
  obtain ⟨hc, hsame⟩ := Counted.ofReset (n := depth) hareas (by rw [hq, hq₀]; rfl) (by rw [hi, hi₀]; exact hl) hreset
  obtain ⟨⟨c, v, p, hc'⟩, hsame'⟩ := Counted.run ⟨_, _, _, hc⟩ hrun
  refine ⟨⟨depth, c, v, p, hc'⟩, fun k hk => ?_⟩
  rw [hsame'.space, hsame.space]
  exact hkept k hk

namespace PortOut

/-- What the theorems below need of a port. -/
structure Sound (ns : List Nat) (p : PortOut T ε) : Prop where
  nonempty : p.interfaces ≠ []
  counted : ∀ ch ∈ p.interfaces, ∃ n c v p, Counted n ch c v p
  thresholds : ∀ ch ∈ p.interfaces, ∀ n ∈ ns, n ∈ ch.emmSpace.thresholds
  andList : ∀ n l, p.blockEventMap.lookup n = some l → l = List.range p.interfaces.length

theorem Elaborated.sound (h : p.Elaborated b ns) : p.Sound ns := by
  obtain ⟨chs, p₁, hne, hnew, hreq, hmap, hruns⟩ := h
  have h₀ : Cached b [] (⟨chs, []⟩ : PortOut T ε) :=
    ⟨hne, fun ch hch => ⟨hnew ch hch, fun _ hn => (List.not_mem_nil hn).elim⟩, fun _ _ hl => nomatch hl⟩
  have h₁ := h₀.blockEvents hreq
  rw [List.nil_append] at h₁
  have hlen := hruns.length_eq
  have hback := (Pointwise.forall₂_mem hruns).2
  refine ⟨fun hnil => ?_, fun ch hch => ?_, fun ch hch n hn => ?_, fun n l hl => ?_⟩
  · rw [hnil] at hlen
    exact h₁.nonempty (List.length_eq_zero_iff.mp hlen)
  · obtain ⟨ch₁, hch₁, hrun⟩ := hback ch hch
    exact (hrun.counted (h₁.requested ch₁ hch₁).1).1
  · obtain ⟨ch₁, hch₁, hrun⟩ := hback ch hch
    exact (hrun.counted (h₁.requested ch₁ hch₁).1).2 n ((h₁.requested ch₁ hch₁).2 n hn)
  · rw [hmap] at hl
    rw [← hlen]
    exact (h₁.andList n l hl).1

omit [Token T] [SmocEvent ε] [LawfulEvent ε] in
theorem le_numFree : n ≤ p.numFree ↔ n ≤ 2 ^ 64 - 1 ∧ ∀ ch ∈ p.interfaces, n ≤ FifoEntry.numFree ch := by
  have hfold : ∀ (chs : List (FifoChan T ε)) (m : Nat),
      n ≤ chs.foldl (fun n ch => min n (FifoEntry.numFree ch)) m ↔ n ≤ m ∧ ∀ ch ∈ chs, n ≤ FifoEntry.numFree ch := by
    intro chs
    induction chs with
    | nil => simp
    | cons ch chs ih => simp [ih, and_assoc]
  exact hfold p.interfaces _

omit [Token T] [LawfulEvent ε] in
/-- The and-list over the events of the channels, cached or not. -/
theorem Sound.blockEventActive_iff (h : p.Sound ns) (hn : n ∈ ns) :
    p.blockEventActive n = true ↔ ∀ ch ∈ p.interfaces, n ≤ FifoEntry.numFree ch := by
  have hactive : ∀ ch ∈ p.interfaces, (ch.emmSpace.isActiveAt n = true ↔ n ≤ FifoEntry.numFree ch) := by
    intro ch hch
    obtain ⟨depth, c, v, q, hc⟩ := h.counted ch hch
    rw [hc.space.isActiveAt_eq (h.thresholds ch hch n hn), decide_eq_true_eq, FifoEntry.numFree, hc.freeCount_eq]
  have hall : p.blockEventActive n = p.interfaces.all fun ch => ch.emmSpace.isActiveAt n := by
    rw [blockEventActive]
    split
    · have hlist : (p.blockEventMap.lookup n).getD (List.range p.interfaces.length) = List.range p.interfaces.length := by
        cases hl : p.blockEventMap.lookup n with
        | none => rfl
        | some l => exact h.andList n l hl
      rw [hlist, Bool.eq_iff_iff, List.all_eq_true, List.all_eq_true]
      constructor
      · intro hi ch hch
        obtain ⟨i, hlt, rfl⟩ := List.mem_iff_getElem.mp hch
        have := hi i (List.mem_range.mpr hlt)
        rwa [List.getElem?_eq_getElem hlt] at this
      · intro hch i hi
        rw [List.getElem?_eq_getElem (List.mem_range.mp hi)]
        exact hch _ (List.getElem_mem _)
    · rfl
  rw [hall, List.all_eq_true]
  exact forall₂_congr hactive

omit [Token T] [SmocEvent ε] [LawfulEvent ε] in
theorem writes_first {limit : Nat} {chs : List (FifoChan T ε)} {m : List (Nat × List Nat)} {ws : List (Nat × T)} :
    ∀ {ch : FifoChan T ε}, ws.foldlM (fun p w => write b limit p w.1 w.2) ⟨ch :: chs, m⟩ =
      (ws.foldlM (fun ch w => FifoEntry.write b ch limit w.1 w.2) ch).map fun ch => ⟨ch :: chs, m⟩ := by
  induction ws with
  | nil => exact rfl
  | cons w ws ih =>
    intro ch
    have hfirst : write b limit ⟨ch :: chs, m⟩ w.1 w.2 =
        (FifoEntry.write b ch limit w.1 w.2).map fun ch => ⟨ch :: chs, m⟩ := by
      simp only [write]
      cases FifoEntry.write b ch limit w.1 w.2 with
      | none | some ch₁ => rfl
    rw [List.foldlM_cons, List.foldlM_cons, hfirst]
    cases FifoEntry.write b ch limit w.1 w.2 with
    | none => rfl
    | some ch₁ => exact ih

omit [LawfulEvent ε] in
theorem Sound.staged {ts : List T} {ws : List (Nat × T)} (h : p.Sound ns)
    (hfree : ∀ ch ∈ p.interfaces, ts.length ≤ FifoEntry.numFree ch) (hws : ∀ w ∈ ws, w.1 < ts.length)
    (hlast : ∀ i < ts.length, lastWritten (fun _ => none) ws i = ts[i]?) :
    ∃ p₁ p₂, ws.foldlM (fun p w => write b ts.length p w.1 w.2) p = some p₁ ∧
      p₁.duplicateOutput b ts.length ts.length = some p₂ ∧ p₂.blockEventMap = p.blockEventMap ∧
      List.Forall₂ (Staged ts) p.interfaces p₂.interfaces := by
  obtain ⟨interfaces, m⟩ := p
  obtain ⟨ch, chs, rfl⟩ := List.exists_cons_of_ne_nil h.nonempty
  have hcounted := h.counted
  obtain ⟨_, c, v, q, hc⟩ := hcounted ch List.mem_cons_self
  obtain ⟨ch₁, hwrite, hstaged⟩ := writes_staged (b := b) hc.areas (hfree ch List.mem_cons_self) (Nat.le_refl _) hws hlast
  obtain ⟨st, rfl, hholds, hframe⟩ := id hstaged
  obtain ⟨chs₁, hcopy, hall⟩ := copyToAll_staged (b := b) { ch with storage := st } chs hc.areas hholds
    (hfree ch List.mem_cons_self) (Nat.le_refl _) fun ch' hch' => by
      obtain ⟨_, c', v', q', hc'⟩ := hcounted ch' (List.mem_cons_of_mem _ hch')
      exact ⟨⟨c', v', q', hc'.areas⟩, hfree ch' (List.mem_cons_of_mem _ hch')⟩
  refine ⟨⟨{ ch with storage := st } :: chs, m⟩, ⟨{ ch with storage := st } :: chs₁, m⟩, ?_, ?_, rfl, .cons hstaged hall⟩
  · rw [writes_first, hwrite]
    rfl
  · simp only [duplicateOutput, hcopy, Option.bind_eq_bind, Option.bind_some]
    rfl

theorem pipeline_left {ch₁ ch₂ : FifoChan T ε} (h : ∃ d c v q, Counted d ch₁ c v q ∧ n ≤ q)
    (hr : Relation.ReflTransGen (LeavesPipeline b n) ch₁ ch₂) : ∃ d c v q, Counted d ch₂ c v q ∧ n ≤ q := by
  induction hr with
  | refl => exact h
  | tail _ hstep ih =>
    obtain ⟨op, hreset, hfinish, hg, hf, hs⟩ := hstep
    obtain ⟨d, c, v, q, hc, hq⟩ := ih
    obtain ⟨c', v', q', hareas, hc', _⟩ := hc.step hg hf hs
    refine ⟨d, c', v', q', hc', ?_⟩
    cases op with
    | write limit i t | outletStart k | outletFinish k =>
      cases hareas
      exact hq
    | entryStart k =>
      cases hareas
      exact Nat.le_trans hq (Nat.le_add_right q k)
    | entryFinish k dropped =>
      have hk := hfinish k dropped rfl
      rw [hc.pipelineCount_eq] at hk
      cases dropped with
      | false | true =>
        cases hareas
        exact Nat.le_sub_of_add_le (by rw [Nat.add_comm]; exact hk)
    | doReset => exact absurd rfl hreset

/-- An output port is enabled for `n` tokens when all its channels have the space,
and its firing then appends the `n` values to each of them and changes nothing else. -/
theorem multicast_appends (h : p.Elaborated b ns) (hn : n ∈ ns) (hsize : n < 2 ^ 64) :
    (p.blockEventActive n = true ↔ n ≤ p.numFree) ∧
    (p.blockEventActive n = true → ∀ (ts : List T) (ws : List (Nat × T)), ts.length = n → (∀ w ∈ ws, w.1 < n) →
      (∀ i < n, lastWritten (fun _ => none) ws i = ts[i]?) →
      ∃ p₁, ws.foldlM (fun p w => write b n p w.1 w.2) p = some p₁ ∧
        (∃ p', p₁.commStart b n n = some p' ∧ List.Forall₂ (Appends ts) p.interfaces p'.interfaces ∧
          ∀ p₂ : PortOut T ε, List.Forall₂ (Relation.ReflTransGen (LeavesPipeline b n)) p'.interfaces p₂.interfaces →
            ∃ p₃, p₂.commFinish b n = some p₃ ∧ List.Forall₂ (Announces n) p₂.interfaces p₃.interfaces) ∧
        ∃ p', p₁.commExec b n n = some p' ∧
          List.Forall₂ (Relation.Comp (Appends ts) (Announces n)) p.interfaces p'.interfaces) := by
  have hsound := h.sound
  have hactive := hsound.blockEventActive_iff hn
  constructor
  · rw [hactive, le_numFree]
    exact ⟨fun hall => ⟨Nat.le_pred_of_lt hsize, hall⟩, And.right⟩
  · rintro hon ts ws rfl hws hlast
    obtain ⟨p₁, p₂, hwrites, hdup, _, hstaged⟩ := hsound.staged (b := b) (hactive.mp hon) hws hlast
    have hstart : ∀ ch ∈ p.interfaces, ∀ ch₁, Staged ts ch ch₁ → ∃ ch', FifoEntry.commStart b ch₁ ts.length = some ch' ∧
        Appends ts ch ch' ∧ ∃ d c v q, Counted d ch' c v q ∧ ts.length ≤ q := by
      rintro ch hch _ ⟨st, rfl, hholds, hframe⟩
      obtain ⟨d, c, v, q, hc⟩ := hsound.counted ch hch
      obtain ⟨ch', hs, happends, hc'⟩ := commStart_appends (b := b) hc (hactive.mp hon ch hch) hholds hframe
      exact ⟨ch', hs, happends, d, c, v, _, hc', Nat.le_add_left _ _⟩
    refine ⟨p₁, hwrites, ?_, ?_⟩
    · obtain ⟨chs, hchs, hall⟩ := Pointwise.mapM_of_forall₂ hstaged hstart
      refine ⟨{ p₂ with interfaces := chs }, ?_, hall.imp fun _ _ h => h.1, fun p₃ hothers => ?_⟩
      · simp only [commStart, hdup, hchs, Option.bind_eq_bind, Option.bind_some]
        rfl
      · have hfinish : ∀ ch₂ ∈ p₃.interfaces, ∀ ch₁, ch₂ = ch₁ →
            ∃ ch', FifoEntry.commFinish b ch₁ ts.length false = some ch' ∧ Announces ts.length ch₂ ch' := by
          rintro ch₂ hch₂ _ rfl
          obtain ⟨ch', hch', hother⟩ := (Pointwise.forall₂_mem hothers).2 ch₂ hch₂
          obtain ⟨ch, _, _, hcounted⟩ := (Pointwise.forall₂_mem hall).2 ch' hch'
          obtain ⟨d, c, v, q, hc, hq⟩ := pipeline_left hcounted hother
          obtain ⟨ch₃, hs, hannounces, _⟩ := commFinish_announces (b := b) hc hq
          exact ⟨ch₃, hs, hannounces⟩
        obtain ⟨chs₃, hchs₃, hall₃⟩ := Pointwise.mapM_of_forall₂ (List.forall₂_refl p₃.interfaces) hfinish
        refine ⟨{ p₃ with interfaces := chs₃ }, ?_, hall₃⟩
        rw [commFinish, hchs₃]
        rfl
    · obtain ⟨chs, hchs, hall⟩ := Pointwise.mapM_of_forall₂ (S := Relation.Comp (Appends ts) (Announces ts.length))
        (f := fun ch => ChanKind.fifo.commExecOut b ch ts.length) hstaged fun ch hch ch₁ hst => by
          obtain ⟨ch', hs, happends, d, c, v, q, hc, hq⟩ := hstart ch hch ch₁ hst
          obtain ⟨ch'', hs', hannounces, _⟩ := commFinish_announces (b := b) hc hq
          refine ⟨ch'', ?_, ch', happends, hannounces⟩
          rw [ChanKind.commExecOut]
          exact Option.bind_eq_some_iff.mpr ⟨ch', hs, hs'⟩
      refine ⟨{ p₂ with interfaces := chs }, ?_, hall⟩
      simp only [commExec, hdup, hchs, Option.bind_eq_bind, Option.bind_some]
      rfl

theorem multicast_appends_two :
    ∃ p p₁ p' : PortOut Nat Bool, p.interfaces.map FifoEntry.numFree = [1, 3] ∧
      [(0, 5), (0, 8)].foldlM (fun p w => p.write .checked 1 w.1 w.2) p = some p₁ ∧ p₁.commExec .checked 1 1 = some p' ∧
      List.Forall₂ (Relation.Comp (Appends [8]) (Announces 1)) p.interfaces p'.interfaces := by
  have hruns : ([1].foldlM (blockEvent .checked) (⟨[.new 2 [7], .new 3 []], []⟩ : PortOut Nat Bool) >>= fun p₀ =>
      (p₀.interfaces.mapM (doReset .checked)).map fun chs =>
        (chs.map FifoEntry.numFree, blockEventActive ⟨chs, p₀.blockEventMap⟩ 1)) = some ([1, 3], true) := by
    decide +kernel
  obtain ⟨p₀, hreq, hruns⟩ := Option.bind_eq_some_iff.mp hruns
  obtain ⟨chs, hreset, hruns⟩ := Option.map_eq_some_iff.mp hruns
  obtain ⟨hfree, hactive⟩ := Prod.mk.inj hruns
  have hp : PortOut.Elaborated .checked [1] ⟨chs, p₀.blockEventMap⟩ := by
    refine ⟨_, p₀, List.cons_ne_nil _ _, fun ch hch => ?_, hreq, rfl, (Pointwise.forall₂_of_mapM hreset).imp ?_⟩
    · rcases List.mem_cons.mp hch with rfl | hch
      · exact ⟨2, [7], [], by decide, rfl⟩
      · rw [List.mem_singleton.mp hch]
        exact ⟨3, [], [], by decide, rfl⟩
    · exact fun ch ch' h => ⟨[], ch, ch', rfl, h, .refl⟩
  obtain ⟨_, happends⟩ := multicast_appends hp (List.mem_singleton.mpr rfl) (by decide)
  obtain ⟨p₁, hwrites, _, p', hexec, hall⟩ := happends hactive [8] [(0, 5), (0, 8)] rfl (by simp) fun i hi => by
    obtain rfl : i = 0 := by omega
    rfl
  exact ⟨_, p₁, p', hfree, hwrites, hexec, hall⟩

end PortOut

end

end SysteMoC
