import SysteMoC.Cyclic

/-!
# Queue index classes

`QueueRWPtr`, `QueueRVWPtr` and `QueueFRVWPtr` as the source layers them. The
indices are natural numbers below the ring size; a failed `assert` ends the
operation with `none`, unless the build compiles assertions out.
-/

namespace SysteMoC

open Cyclic

/-- `asserts` holds unless `NDEBUG` is defined, `debug` is `SYSTEMOC_ENABLE_DEBUG`. -/
structure Build where
  asserts : Bool
  debug : Bool
deriving DecidableEq, Repr

namespace Build

/-- The build `configure` sets up by default. -/
def checked : Build := ⟨true, true⟩

def release : Build := ⟨false, false⟩

def assert (b : Build) (p : Prop) [Decidable p] : Option Unit :=
  if b.asserts = true ∧ ¬ p then none else some ()

/-- An `assert` under `#if defined(SYSTEMOC_ENABLE_DEBUG)`. -/
def debugAssert (b : Build) (p : Prop) [Decidable p] : Option Unit :=
  if b.debug then b.assert p else some ()

theorem assert_of (b : Build) {p : Prop} [Decidable p] (h : p) : b.assert p = some () := by
  simp [assert, h]

theorem debugAssert_of (b : Build) {p : Prop} [Decidable p] (h : p) : b.debugAssert p = some () := by
  simp [debugAssert, assert_of b h]

end Build

/-- Subtraction of `size_t`. -/
def sizeSub (a b : Nat) : Nat := if b ≤ a then a - b else a + 2 ^ 64 - b

/-! ## Read and write index -/

structure QueueRWPtr where
  fsize : Nat
  rindex : Nat
  windex : Nat
deriving DecidableEq, Repr

namespace QueueRWPtr

def ofDepth (n : Nat) : QueueRWPtr := { fsize := n + 1, rindex := 0, windex := 0 }

def usedCount (q : QueueRWPtr) : Nat := sub q.fsize q.windex q.rindex

def visibleCount (q : QueueRWPtr) : Nat := q.usedCount

def depthCount (q : QueueRWPtr) : Nat := q.fsize - 1

def freeCount (q : QueueRWPtr) : Nat := sub q.fsize (sub q.fsize q.rindex q.windex) 1

def wpp (b : Build) (q : QueueRWPtr) (n : Nat) : Option QueueRWPtr := do
  b.assert (n ≤ q.freeCount)
  return { q with windex := add q.fsize q.windex n }

def rpp (b : Build) (q : QueueRWPtr) (n : Nat) : Option QueueRWPtr := do
  b.assert (n ≤ q.visibleCount)
  return { q with rindex := add q.fsize q.rindex n }

def resetQueue (q : QueueRWPtr) : QueueRWPtr := { q with rindex := 0, windex := 0 }

def dropRVisible (b : Build) (q : QueueRWPtr) (n : Nat) : Option QueueRWPtr := q.rpp b n

end QueueRWPtr

/-! ## Visible index -/

structure QueueRVWPtr extends QueueRWPtr where
  vindex : Nat
deriving DecidableEq, Repr

namespace QueueRVWPtr

def ofDepth (n : Nat) : QueueRVWPtr := { QueueRWPtr.ofDepth n with vindex := 0 }

def visibleCount (q : QueueRVWPtr) : Nat := sub q.fsize q.vindex q.rindex

def rpp (b : Build) (q : QueueRVWPtr) (n : Nat) : Option QueueRVWPtr := do
  b.debugAssert (n ≤ q.visibleCount)
  let base ← q.toQueueRWPtr.rpp b n
  return { q with toQueueRWPtr := base }

def vpp (b : Build) (q : QueueRVWPtr) (n : Nat) : Option QueueRVWPtr := do
  b.assert (Between q.fsize q.vindex q.rindex q.windex)
  b.assert (n ≤ sub q.fsize q.windex q.vindex)
  return { q with vindex := add q.fsize q.vindex n }

def resetQueue (q : QueueRVWPtr) : QueueRVWPtr :=
  { q with toQueueRWPtr := q.toQueueRWPtr.resetQueue, vindex := 0 }

def dropRInvisible (b : Build) (q : QueueRVWPtr) (n : Nat) : Option QueueRVWPtr := do
  let q ← q.vpp b n
  let base ← q.toQueueRWPtr.dropRVisible b n
  return { q with toQueueRWPtr := base }

end QueueRVWPtr

/-! ## Free index -/

structure QueueFRVWPtr extends QueueRVWPtr where
  findex : Nat
deriving DecidableEq, Repr

namespace QueueFRVWPtr

def ofDepth (n : Nat) : QueueFRVWPtr := { QueueRVWPtr.ofDepth n with findex := 0 }

def freeCount (q : QueueFRVWPtr) : Nat := sub q.fsize (sub q.fsize q.findex q.windex) 1

def wpp (b : Build) (q : QueueFRVWPtr) (n : Nat) : Option QueueFRVWPtr := do
  b.debugAssert (n ≤ q.freeCount)
  let base ← q.toQueueRWPtr.wpp b n
  return { q with toQueueRWPtr := base }

def rpp (b : Build) (q : QueueFRVWPtr) (n : Nat) : Option QueueFRVWPtr := do
  let base ← q.toQueueRVWPtr.rpp b n
  return { q with toQueueRVWPtr := base }

def vpp (b : Build) (q : QueueFRVWPtr) (n : Nat) : Option QueueFRVWPtr := do
  let base ← q.toQueueRVWPtr.vpp b n
  return { q with toQueueRVWPtr := base }

def fpp (b : Build) (q : QueueFRVWPtr) (n : Nat) : Option QueueFRVWPtr := do
  b.assert (Between q.fsize q.findex (add q.fsize q.windex 1) q.rindex)
  b.assert (n ≤ sub q.fsize q.rindex q.findex)
  return { q with findex := add q.fsize q.findex n }

def resetQueue (q : QueueFRVWPtr) : QueueFRVWPtr :=
  { q with toQueueRVWPtr := q.toQueueRVWPtr.resetQueue, findex := 0 }

def dropRInvisible (b : Build) (q : QueueFRVWPtr) (n : Nat) : Option QueueFRVWPtr := do
  let base ← q.toQueueRVWPtr.dropRInvisible b n
  fpp b { q with toQueueRVWPtr := base } n

end QueueFRVWPtr

/-! ## The four areas -/

/-- From `findex` on: `c` slots being consumed, `v` visible tokens, `p` tokens in
the pipeline; the rest is free but for one slot. -/
structure Areas (q : QueueFRVWPtr) (c v p : Nat) : Prop where
  findex_lt : q.findex < q.fsize
  fits : c + v + p < q.fsize
  rindex_eq : q.rindex = add q.fsize q.findex c
  vindex_eq : q.vindex = add q.fsize q.findex (c + v)
  windex_eq : q.windex = add q.fsize q.findex (c + v + p)

namespace Areas

variable {q : QueueFRVWPtr} {c v p n : Nat} {b : Build}

theorem fsize_pos (h : Areas q c v p) : 0 < q.fsize := Nat.lt_of_le_of_lt (Nat.zero_le _) h.findex_lt

theorem rindex_lt (h : Areas q c v p) : q.rindex < q.fsize := by
  rw [h.rindex_eq]; exact add_lt h.fsize_pos

theorem windex_lt (h : Areas q c v p) : q.windex < q.fsize := by
  rw [h.windex_eq]; exact add_lt h.fsize_pos

theorem windex_rindex (h : Areas q c v p) : q.windex = add q.fsize q.rindex (v + p) := by
  rw [h.windex_eq, h.rindex_eq, add_add, Nat.add_assoc]

theorem vindex_rindex (h : Areas q c v p) : q.vindex = add q.fsize q.rindex v := by
  rw [h.vindex_eq, h.rindex_eq, add_add]

theorem visibleCount_eq (h : Areas q c v p) : q.visibleCount = v := by
  have := h.fits
  rw [QueueRVWPtr.visibleCount, h.vindex_rindex]
  exact sub_add_self h.rindex_lt (by omega)

theorem usedCount_eq (h : Areas q c v p) : q.usedCount = v + p := by
  have := h.fits
  rw [QueueRWPtr.usedCount, h.windex_rindex]
  exact sub_add_self h.rindex_lt (by omega)

theorem freeCount_eq (h : Areas q c v p) : q.freeCount = q.fsize - 1 - (c + v + p) := by
  have hf := h.fits
  have hw := h.windex_lt
  have hm := h.fsize_pos
  have hfi := h.findex_lt
  have hwe := h.windex_eq
  rw [add_eq hfi (Nat.le_of_lt hf)] at hwe
  rcases Nat.eq_or_lt_of_le (show 1 ≤ q.fsize from hm) with h1 | h1
  · have : q.freeCount < q.fsize := sub_lt hm
    omega
  · rw [QueueFRVWPtr.freeCount, sub_eq (sub_lt hm) h1, sub_eq hfi hw]
    split at hwe <;> split <;> split <;> omega

theorem baseFreeCount_eq (h : Areas q c v p) : q.toQueueRWPtr.freeCount = q.fsize - 1 - (v + p) := by
  have hf := h.fits
  have hw := h.windex_lt
  have hm := h.fsize_pos
  have hr := h.rindex_lt
  have hwe := h.windex_rindex
  rw [add_eq hr (by omega)] at hwe
  rcases Nat.eq_or_lt_of_le (show 1 ≤ q.fsize from hm) with h1 | h1
  · have : q.toQueueRWPtr.freeCount < q.fsize := sub_lt hm
    omega
  · rw [QueueRWPtr.freeCount, sub_eq (sub_lt hm) h1, sub_eq hr hw]
    split at hwe <;> split <;> split <;> omega

theorem pipeline_eq (h : Areas q c v p) : sub q.fsize q.windex q.vindex = p := by
  have := h.fits
  rw [h.windex_eq, h.vindex_eq, sub_add_add h.findex_lt (by omega) (by omega) (by omega)]
  omega

theorem inConsume_eq (h : Areas q c v p) : sub q.fsize q.rindex q.findex = c := by
  have := h.fits
  rw [h.rindex_eq]
  exact sub_add_self h.findex_lt (by omega)

theorem between_vpp (h : Areas q c v p) : Between q.fsize q.vindex q.rindex q.windex := by
  have hv := h.visibleCount_eq
  have hu := h.usedCount_eq
  unfold QueueRVWPtr.visibleCount at hv
  unfold QueueRWPtr.usedCount at hu
  unfold Between
  omega

theorem between_fpp (h : Areas q c v p) :
    Between q.fsize q.findex (add q.fsize q.windex 1) q.rindex := by
  have hf := h.fits
  have hm := h.fsize_pos
  have hfi := h.findex_lt
  have hr := h.rindex_lt
  have hw : add q.fsize q.windex 1 = add q.fsize q.findex (c + v + p + 1) := by
    rw [h.windex_eq, add_add]
  have hre := h.rindex_eq
  unfold Between
  rw [hw, sub_eq hfi (add_lt hm), sub_eq hr (add_lt hm), add_eq hfi (by omega)]
  rw [add_eq hfi (by omega)] at hre
  split at hre <;> split <;> split <;> split <;> omega

/-! ### What one operation does -/

theorem wpp_eq (h : Areas q c v p) (hn : n ≤ q.freeCount) :
    q.wpp b n = some { q with windex := add q.fsize q.windex n } := by
  have hb : n ≤ q.toQueueRWPtr.freeCount := by
    rw [h.freeCount_eq] at hn; rw [h.baseFreeCount_eq]; omega
  simp [QueueFRVWPtr.wpp, QueueRWPtr.wpp, b.debugAssert_of hn, b.assert_of hb]

theorem wpp (h : Areas q c v p) (hn : n ≤ q.freeCount) :
    Areas { q with windex := add q.fsize q.windex n } c v (p + n) where
  findex_lt := h.findex_lt
  fits := by have := h.fits; rw [h.freeCount_eq] at hn; show c + v + (p + n) < q.fsize; omega
  rindex_eq := h.rindex_eq
  vindex_eq := h.vindex_eq
  windex_eq := by
    show add q.fsize q.windex n = _
    rw [h.windex_eq, add_add, Nat.add_assoc]

theorem vpp_eq (h : Areas q c v p) (hn : n ≤ p) :
    q.vpp b n = some { q with vindex := add q.fsize q.vindex n } := by
  have hp : n ≤ sub q.fsize q.windex q.vindex := by rw [h.pipeline_eq]; exact hn
  simp [QueueFRVWPtr.vpp, QueueRVWPtr.vpp, b.assert_of h.between_vpp, b.assert_of hp]

theorem vpp (h : Areas q c v p) (hn : n ≤ p) :
    Areas { q with vindex := add q.fsize q.vindex n } c (v + n) (p - n) where
  findex_lt := h.findex_lt
  fits := by have := h.fits; show c + (v + n) + (p - n) < q.fsize; omega
  rindex_eq := h.rindex_eq
  vindex_eq := by
    show add q.fsize q.vindex n = _
    rw [h.vindex_eq, add_add, Nat.add_assoc]
  windex_eq := by
    show q.windex = _
    rw [h.windex_eq, show c + (v + n) + (p - n) = c + v + p by omega]

theorem rpp_eq (h : Areas q c v p) (hn : n ≤ v) :
    q.rpp b n = some { q with rindex := add q.fsize q.rindex n } := by
  have hv : n ≤ q.visibleCount := by rw [h.visibleCount_eq]; exact hn
  have hu : n ≤ q.toQueueRWPtr.visibleCount := by
    rw [QueueRWPtr.visibleCount, h.usedCount_eq]; omega
  simp [QueueFRVWPtr.rpp, QueueRVWPtr.rpp, QueueRWPtr.rpp, b.debugAssert_of hv, b.assert_of hu]

theorem rpp (h : Areas q c v p) (hn : n ≤ v) :
    Areas { q with rindex := add q.fsize q.rindex n } (c + n) (v - n) p where
  findex_lt := h.findex_lt
  fits := by have := h.fits; show c + n + (v - n) + p < q.fsize; omega
  rindex_eq := by
    show add q.fsize q.rindex n = _
    rw [h.rindex_eq, add_add]
  vindex_eq := by
    show q.vindex = _
    rw [h.vindex_eq, show c + n + (v - n) = c + v by omega]
  windex_eq := by
    show q.windex = _
    rw [h.windex_eq, show c + n + (v - n) + p = c + v + p by omega]

theorem fpp_eq (h : Areas q c v p) (hn : n ≤ c) :
    q.fpp b n = some { q with findex := add q.fsize q.findex n } := by
  have hc : n ≤ sub q.fsize q.rindex q.findex := by rw [h.inConsume_eq]; exact hn
  simp [QueueFRVWPtr.fpp, b.assert_of h.between_fpp, b.assert_of hc]

theorem fpp (h : Areas q c v p) (hn : n ≤ c) :
    Areas { q with findex := add q.fsize q.findex n } (c - n) v p where
  findex_lt := add_lt h.fsize_pos
  fits := by have := h.fits; show c - n + v + p < q.fsize; omega
  rindex_eq := by
    show q.rindex = add q.fsize (add q.fsize q.findex n) (c - n)
    rw [h.rindex_eq, add_add, show n + (c - n) = c by omega]
  vindex_eq := by
    show q.vindex = add q.fsize (add q.fsize q.findex n) (c - n + v)
    rw [h.vindex_eq, add_add, show n + (c - n + v) = c + v by omega]
  windex_eq := by
    show q.windex = add q.fsize (add q.fsize q.findex n) (c - n + v + p)
    rw [h.windex_eq, add_add, show n + (c - n + v + p) = c + v + p by omega]

theorem resetQueue (hm : 0 < q.fsize) : Areas q.resetQueue 0 0 0 where
  findex_lt := hm
  fits := hm
  rindex_eq := (Cyclic.add_zero hm).symm
  vindex_eq := (Cyclic.add_zero hm).symm
  windex_eq := (Cyclic.add_zero hm).symm

/-- Dropping moves the three older areas right by `n` slots. -/
theorem dropRInvisible_eq (h : Areas q c v p) (hn : n ≤ p) :
    ∃ q', q.dropRInvisible b n = some q' ∧ Areas q' c v (p - n) ∧ q'.fsize = q.fsize ∧
      q'.findex = add q.fsize q.findex n ∧ q'.rindex = add q.fsize q.rindex n ∧ q'.windex = q.windex := by
  have h₁ := h.vpp hn
  have hu : n ≤ QueueRWPtr.visibleCount q.toQueueRWPtr := by
    rw [QueueRWPtr.visibleCount, h.usedCount_eq]; omega
  have h₂ := h₁.rpp (n := n) (by omega)
  have h₃ := h₂.fpp (n := n) (by omega)
  have hp : n ≤ sub q.fsize q.windex q.vindex := by rw [h.pipeline_eq]; exact hn
  have hc : n ≤ sub q.fsize (add q.fsize q.rindex n) q.findex := by
    have := h₂.inConsume_eq
    simp only at this
    rw [this]; omega
  have hb := h₂.between_fpp
  refine ⟨{ q with
    vindex := add q.fsize q.vindex n, rindex := add q.fsize q.rindex n,
    findex := add q.fsize q.findex n }, ?_, ?_, rfl, rfl, rfl, rfl⟩
  · simp [QueueFRVWPtr.dropRInvisible, QueueRVWPtr.dropRInvisible, QueueRVWPtr.vpp, QueueRWPtr.dropRVisible,
      QueueRWPtr.rpp, QueueFRVWPtr.fpp, b.assert_of h.between_vpp, b.assert_of hp, b.assert_of hu,
      b.assert_of hb, b.assert_of hc]
  · rw [show c + n - n = c by omega, show v + n - n = v by omega] at h₃
    exact h₃

end Areas

end SysteMoC
