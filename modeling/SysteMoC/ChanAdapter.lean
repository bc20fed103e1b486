import SysteMoC.FiringSound

/-!
# TLM adapters for reading

`smoc_chan_adapter` for the blocking and the non-blocking `get`. The blocking one keeps
a reference into the ring while the token is committed, so what lives in the
memory of a slot matters also where its flag `valid` is false.
-/

namespace SysteMoC

open Cyclic

/-- `std::is_trivially_destructible`; only another destructor ends the lifetime of an object. -/
class Destructor (T : Type) where
  trivial : Bool

/-- A channel with the objects that still live in slots that are not valid. -/
structure AdaptedChan (T ε : Type) where
  chan : FifoChan T ε
  residue : Nat → Option T

namespace AdaptedChan

variable {T ε : Type}

def object (s : AdaptedChan T ε) (i : Nat) : Option T := (s.chan.storage i).or (s.residue i)

def headSlot (s : AdaptedChan T ε) : Nat := ringSlot s.chan.fsize s.chan.rindex 0

variable [Token T]

/-- `(*ca)[0]` with the limit 1: a slot that is not valid gets a default constructed token. -/
def access (b : Build) (s : AdaptedChan T ε) : Option (T × AdaptedChan T ε) := do
  b.debugAssert (0 < 1)
  let (t, st) ← s.chan.storage.get s.headSlot
  return (t, { s with chan := { s.chan with storage := st } })

variable [SmocEvent ε] [Destructor T]

/-- The destructor is called for each slot that is valid no longer. -/
def commExec (b : Build) (s : AdaptedChan T ε) (consume : Nat) : Option (AdaptedChan T ε) := do
  let ch ← ChanKind.fifo.commExecIn b s.chan consume
  return { chan := ch, residue := fun i =>
    match s.chan.storage i, ch.storage i with
    | some t, none => if Destructor.trivial T then some t else none
    | _, _ => s.residue i }

/-- `get` once `smoc_wait` has returned: what the reference reads is copied at the end. -/
def get (b : Build) (s : AdaptedChan T ε) : Option (T × AdaptedChan T ε) := do
  let (_, s) ← s.access b
  let slot := s.headSlot
  let s ← s.commExec b 1
  let t ← s.object slot
  return (t, s)

def nb_get (b : Build) (s : AdaptedChan T ε) : Option (Option T × AdaptedChan T ε) :=
  if s.chan.emmData.isActiveAt 1 then do
    let (t, s) ← s.access b
    let s ← s.commExec b 1
    return (some t, s)
  else some (none, s)

/-- Both read `t` and leave the channel with that token consumed and its slot destroyed. -/
def Agree (b : Build) (s : AdaptedChan T ε) (t : T) : Prop :=
  ∃ s', s.get b = some (t, s') ∧ s.nb_get b = some (some t, s') ∧ s'.chan.visibleCount + 1 = s.chan.visibleCount ∧
    s'.chan.storage s.headSlot = none

/-! ## One token -/

variable {b : Build} {s : AdaptedChan T ε} {ch ch' : FifoChan T ε} {t : T} {c v p n : Nat}

omit [Token T] [SmocEvent ε] [Destructor T] in
theorem headSlot_eq (h : s.chan.rindex < s.chan.fsize) : s.headSlot = s.chan.rindex := by
  rw [headSlot, ringSlot, Nat.add_zero, if_pos h]

omit [Token T] [Destructor T] in
theorem commStart_storage (hr : ch.rindex < ch.fsize) (h : FifoOutlet.commStart b ch 1 = some ch') :
    ch'.storage = ch.storage.invalidate ch.rindex := by
  obtain ⟨q, hq, h⟩ := Option.bind_eq_some_iff.mp h
  cases h
  obtain ⟨_, _, hq⟩ := Option.bind_eq_some_iff.mp hq
  obtain ⟨_, _, hq⟩ := Option.bind_eq_some_iff.mp hq
  cases hq
  have hone : min 1 (ch.fsize - ch.rindex) = 1 := by omega
  show (ch.storage.invalidateFrom ch.rindex (min 1 (ch.fsize - ch.rindex))).invalidateFrom 0
    (1 - min 1 (ch.fsize - ch.rindex)) = ch.storage.invalidate ch.rindex
  rw [hone]
  rfl

omit [Token T] [Destructor T] in
theorem commFinish_storage (h : FifoOutlet.commFinish b ch n false = some ch') : ch'.storage = ch.storage := by
  rw [FifoOutlet.commFinish_eq] at h
  obtain ⟨q, hq, h⟩ := Option.bind_eq_some_iff.mp h
  cases h
  obtain ⟨base, _, hq⟩ := Option.bind_eq_some_iff.mp hq
  cases hq
  rfl

omit [Destructor T] in
theorem commExecIn_storage (hr : ch.rindex < ch.fsize) (h : ChanKind.fifo.commExecIn b ch 1 = some ch') :
    ch'.storage = ch.storage.invalidate ch.rindex := by
  obtain ⟨ch₁, hstart, hfinish⟩ := Option.bind_eq_some_iff.mp h
  rw [commFinish_storage hfinish]
  exact commStart_storage hr hstart

omit [Destructor T] [SmocEvent ε] in
theorem access_eq {st : Storage T} (h : s.chan.storage.get s.headSlot = some (t, st)) :
    s.access b = some (t, { s with chan := { s.chan with storage := st } }) := by
  rw [access, b.debugAssert_of Nat.one_pos, h]
  rfl

omit [Destructor T] in
theorem get_some {st st' : Storage T} {i : Nat} (h : st.get i = some (t, st')) : st' i = some t := by
  unfold Storage.get at h
  cases hi : st i with
  | some t' =>
    rw [hi] at h
    cases h
    exact hi
  | none =>
    rw [hi] at h
    obtain ⟨t', _, h⟩ := Option.map_eq_some_iff.mp h
    cases h
    exact Function.update_self _ _ _

/-- The commit after the access: the object in the slot survives a trivial destructor only. -/
theorem commExec_eq (h : Areas s.chan.toQueueFRVWPtr c v p) (hv : 1 ≤ v) (ht : s.chan.storage s.headSlot = some t) :
    ∃ s', s.commExec b 1 = some s' ∧ s'.chan.visibleCount + 1 = s.chan.visibleCount ∧
      s'.chan.storage s.headSlot = none ∧ s'.object s.headSlot = if Destructor.trivial T then some t else none := by
  obtain ⟨ch', hch, ha, -⟩ : ∃ ch', ChanKind.fifo.commExecIn b s.chan 1 = some ch' ∧
      Areas ch'.toQueueFRVWPtr c (v - 1) p ∧ ch'.fsize = s.chan.fsize := ChanKind.commExecIn_eq h hv
  have hnone : ch'.storage s.headSlot = none := by
    rw [commExecIn_storage h.rindex_lt hch, headSlot_eq h.rindex_lt]
    exact Function.update_self _ _ _
  refine ⟨_, by rw [commExec, hch]; rfl, ?_, hnone, ?_⟩
  · show ch'.visibleCount + 1 = _
    rw [ha.visibleCount_eq, h.visibleCount_eq]
    omega
  · show (ch'.storage s.headSlot).or _ = _
    simp only [hnone, ht, Option.none_or]

variable [LawfulEvent ε] {rs : List EventRequest}

/-- Where a token can be read, both adapters agree exactly if its destructor is trivial. -/
theorem gets_agree_iff {st : Storage T} (h : Elaborated .fifo b n rs s.chan) (hrs : .data 1 ∈ rs)
    (hv : 1 ≤ s.chan.visibleCount) (ht : s.chan.storage.get s.headSlot = some (t, st)) :
    s.Agree b t ↔ Destructor.trivial T = true := by
  obtain ⟨⟨c, v, p, hc⟩, hdata, -⟩ := h.counted
  have hactive : s.chan.emmData.isActiveAt 1 = true := by
    rw [hc.data.isActiveAt_eq (hdata 1 hrs)]
    rw [hc.areas.visibleCount_eq] at hv
    exact decide_eq_true hv
  rw [hc.areas.visibleCount_eq] at hv
  have haccess := access_eq (b := b) ht
  obtain ⟨s', hs', hcount, hnone, hobject⟩ := commExec_eq (b := b)
    (s := { s with chan := { s.chan with storage := st } }) hc.areas hv (get_some ht)
  have hnb : s.nb_get b = some (some t, s') := by
    rw [nb_get, if_pos hactive, haccess]
    simp only [Option.bind_eq_bind, Option.bind_some, hs']
    rfl
  have hget : s.get b = (if Destructor.trivial T then some t else none).map fun t => (t, s') := by
    rw [get, haccess]
    simp only [Option.bind_eq_bind, Option.bind_some, hs', hobject]
    cases Destructor.trivial T <;> rfl
  unfold Agree
  rw [hget, hnb]
  cases htrivial : Destructor.trivial T with
  | true => exact iff_of_true ⟨s', rfl, rfl, hcount, hnone⟩ rfl
  | false =>
    refine iff_of_false (fun hagree => ?_) (by simp)
    obtain ⟨_, hs, _⟩ := hagree
    cases hs

/-- An `int`. -/
instance : Destructor Nat := ⟨true⟩

instance : Token String where
  defaultToken := some ""

/-- A `std::string`. -/
instance : Destructor String := ⟨false⟩

theorem gets_agree_iff_int : ∃ s : AdaptedChan Nat Bool, s.Agree .checked 7 ∧ s.chan.visibleCount = 1 := by
  obtain ⟨s, hel, hvisible, ht⟩ : ∃ s : AdaptedChan Nat Bool, Elaborated .fifo .checked 2 [.data 1] s.chan ∧
      s.chan.visibleCount = 1 ∧ s.chan.storage s.headSlot = some 7 :=
    ⟨⟨_, fun _ => none⟩, ⟨[7], _, _, by decide, rfl, rfl, .refl⟩, rfl, rfl⟩
  have hget : s.chan.storage.get s.headSlot = some (7, s.chan.storage) := by
    rw [Storage.get, ht]
  exact ⟨s, (gets_agree_iff hel (by simp) hvisible.ge hget).mpr rfl, hvisible⟩

/-- The blocking adapter copies a string that has been destroyed. -/
theorem string_lost : ∃ s s' : AdaptedChan String Bool, Elaborated .fifo .checked 2 [.data 1] s.chan ∧
    s.chan.visibleCount = 1 ∧ s.chan.storage s.headSlot = some "token" ∧
    s.nb_get .checked = some (some "token", s') ∧ s.get .checked = none :=
  ⟨⟨_, fun _ => none⟩, _, ⟨["token"], _, _, by decide, rfl, rfl, .refl⟩, rfl, rfl, rfl, rfl⟩

end AdaptedChan

end SysteMoC
