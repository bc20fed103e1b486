import SysteMoC.TransformReads
import SysteMoC.Assoc

/-!
# What a merged channel is made of

The writes merged into one channel succeed just when those of one content have one token
size. The channel then has each content once, with the largest capacity.
-/

namespace SysteMoC.SNG

def EdgeInfo.value (ei : EdgeInfo) : Nat := ei.tokenSize * ei.tokens

def VertexType.kind? (type : VertexType) : Option String := type.chan?.map Prod.fst

def maxCapacity (ws : List Write) (content : String) : Nat :=
  (Grouping.group (·.chanNameSameContent) ws content).foldl (fun capacity w => max capacity w.orig.capacity) 0

/-- Writes of one content have one token size. -/
def SameSize (ws : List Write) : Prop :=
  ∀ w ∈ ws, ∀ w' ∈ ws, w.chanNameSameContent = w'.chanNameSameContent → w.orig.tokenSize = w'.orig.tokenSize

/-- A write as it is read for the actor `vi`. -/
def Write.Of (vi : VertexInfo) (w : Write) : Prop :=
  ∃ kind, w.viChan.type.chan? = some (kind, w.orig) ∧
    w.chanNameSameContent = kind ++ vi.name ++ "." ++ w.eiEdge.name ∧ w.chanNameSameProducer = kind ++ vi.name ++ ".out"

section
variable {ws : List Write} {w w' : Write} {content : String} {vi : VertexInfo}

theorem maxCapacity_concat_self : maxCapacity (ws ++ [w]) w.chanNameSameContent =
    max (maxCapacity ws w.chanNameSameContent) w.orig.capacity := by
  unfold maxCapacity
  rw [Grouping.group_concat_self (f := Write.chanNameSameContent), List.foldl_append]
  rfl

theorem maxCapacity_concat_of_ne (h : content ≠ w.chanNameSameContent) :
    maxCapacity (ws ++ [w]) content = maxCapacity ws content := by
  unfold maxCapacity
  rw [Grouping.group_concat_of_ne (f := Write.chanNameSameContent) h]

theorem maxCapacity_none (h : ∀ w ∈ ws, w.chanNameSameContent ≠ content) : maxCapacity ws content = 0 := by
  unfold maxCapacity
  rw [Grouping.group_eq_nil.mpr h]
  rfl

theorem VertexType.chan?_kind {type : VertexType} {kind : String} {orig : OrigChanInfo}
    (h : type.chan? = some (kind, orig)) : kind = "cf:" ∨ kind = "reg:" := by
  cases type with
  | actor r => cases h
  | fifo => exact .inl (by cases h; rfl)
  | register => exact .inr (by cases h; rfl)

theorem kind_eq {kind kind' s s' : String} (hkind : kind = "cf:" ∨ kind = "reg:")
    (hkind' : kind' = "cf:" ∨ kind' = "reg:") (h : kind ++ s = kind' ++ s') : kind = kind' := by
  have hlist := congrArg String.toList h
  rw [String.toList_append, String.toList_append] at hlist
  obtain rfl | rfl := hkind
  · obtain rfl | rfl := hkind'
    · rfl
    · simp at hlist
  · obtain rfl | rfl := hkind'
    · simp at hlist
    · rfl

theorem Write.Of.kind_eq (h : w.Of vi) (h' : w'.Of vi) {t : Merging} (hname : w.chanName t = w'.chanName t) :
    w.viChan.type.kind? = w'.viChan.type.kind? := by
  obtain ⟨kind, hchan, hcontent, hproducer⟩ := h
  obtain ⟨kind', hchan', hcontent', hproducer'⟩ := h'
  unfold VertexType.kind?
  rw [hchan, hchan', Option.map_some, Option.map_some]
  congr 1
  cases t with
  | sameContent =>
    simp only [Write.chanName, hcontent, hcontent', String.append_assoc] at hname
    exact SNG.kind_eq (VertexType.chan?_kind hchan) (VertexType.chan?_kind hchan') hname
  | sameProducer =>
    simp only [Write.chanName, hproducer, hproducer', String.append_assoc] at hname
    exact SNG.kind_eq (VertexType.chan?_kind hchan) (VertexType.chan?_kind hchan') hname

theorem Write.Of.content_eq_iff (h : w.Of vi) (h' : w'.Of vi) :
    w.chanNameSameContent = w'.chanNameSameContent ↔
      w.viChan.type.kind? = w'.viChan.type.kind? ∧ w.eiEdge.name = w'.eiEdge.name := by
  constructor
  · intro heq
    have hkind := Write.Of.kind_eq (t := .sameContent) h h' heq
    refine ⟨hkind, ?_⟩
    obtain ⟨kind, hchan, hcontent, _⟩ := h
    obtain ⟨kind', hchan', hcontent', _⟩ := h'
    unfold VertexType.kind? at hkind
    rw [hchan, hchan', Option.map_some, Option.map_some, Option.some.injEq] at hkind
    simp only at hkind
    rw [hcontent, hcontent', hkind] at heq
    exact (String.append_right_inj _).mp heq
  · intro ⟨hkind, hname⟩
    obtain ⟨kind, hchan, hcontent, _⟩ := h
    obtain ⟨kind', hchan', hcontent', _⟩ := h'
    unfold VertexType.kind? at hkind
    rw [hchan, hchan', Option.map_some, Option.map_some, Option.some.injEq] at hkind
    simp only at hkind
    rw [hcontent, hcontent', hkind, hname]

end

/-! ## Contents -/

structure ContentsOf (ws : List Write) (origChanInfo : List (String × OrigChanInfo)) : Prop where
  nodup : (origChanInfo.map Prod.fst).Nodup
  keys : ∀ content, content ∈ origChanInfo.map Prod.fst ↔ ∃ w ∈ ws, w.chanNameSameContent = content
  lookup : ∀ w ∈ ws, origChanInfo.lookup w.chanNameSameContent =
    some ⟨w.orig.tokenSize, maxCapacity ws w.chanNameSameContent⟩

section
variable {ws : List Write} {w : Write} {content : String} {m m' : MergedChan} {orig : OrigChanInfo}

theorem mergeContent_new (hlookup : m.origChanInfo.lookup w.chanNameSameContent = none)
    (hm : mergeContent m w = some m') :
    m' = ⟨m.viMergedChan, m.eiMergedEdge.merge w.eiEdge, m.origChanInfo ++ [(w.chanNameSameContent, w.orig)]⟩ := by
  unfold mergeContent at hm
  rw [hlookup] at hm
  exact (Option.some.inj hm).symm

theorem mergeContent_old (hlookup : m.origChanInfo.lookup w.chanNameSameContent = some orig)
    (hm : mergeContent m w = some m') :
    orig.tokenSize = w.orig.tokenSize ∧ m'.viMergedChan = m.viMergedChan ∧ m'.eiMergedEdge = m.eiMergedEdge ∧
      m'.origChanInfo.map Prod.fst = m.origChanInfo.map Prod.fst ∧
      ∀ content, m'.origChanInfo.lookup content = if content = w.chanNameSameContent
        then some ⟨orig.tokenSize, max orig.capacity w.orig.capacity⟩ else m.origChanInfo.lookup content := by
  unfold mergeContent at hm
  rw [hlookup] at hm
  dsimp only at hm
  by_cases hsize : orig.tokenSize = w.orig.tokenSize
  · rw [if_pos hsize] at hm
    cases hm
    refine ⟨hsize, rfl, rfl, ?_, ?_⟩
    · exact Assoc.keys_map_if (fun o : OrigChanInfo => ⟨o.tokenSize, max o.capacity w.orig.capacity⟩)
    · intro content
      refine (Assoc.lookup_map_if fun o : OrigChanInfo => ⟨o.tokenSize, max o.capacity w.orig.capacity⟩).trans ?_
      by_cases hcontent : content = w.chanNameSameContent
      · rw [if_pos hcontent, if_pos hcontent, hcontent, hlookup]
        rfl
      · rw [if_neg hcontent, if_neg hcontent]
  · rw [if_neg hsize] at hm
    cases hm

theorem ContentsOf.first (w : Write) : ContentsOf [w] [(w.chanNameSameContent, w.orig)] := by
  refine ⟨List.nodup_singleton _, ?_, ?_⟩
  · intro content
    simp [eq_comm]
  · intro w' hw'
    obtain rfl := List.mem_singleton.mp hw'
    have hmax : maxCapacity ([] ++ [w']) w'.chanNameSameContent =
        max (maxCapacity [] w'.chanNameSameContent) w'.orig.capacity := maxCapacity_concat_self
    have hnone : maxCapacity [] w'.chanNameSameContent = 0 := rfl
    rw [List.nil_append, hnone, Nat.zero_max] at hmax
    rw [List.lookup_cons_self, hmax]

/-- What is known of content that was seen. -/
theorem ContentsOf.of_lookup (h : ContentsOf ws m.origChanInfo)
    (hlookup : m.origChanInfo.lookup content = some orig) :
    ∃ w ∈ ws, w.chanNameSameContent = content ∧ orig = ⟨w.orig.tokenSize, maxCapacity ws content⟩ := by
  have hmem : content ∈ m.origChanInfo.map Prod.fst := List.mem_map_of_mem (Assoc.mem_of_lookup hlookup)
  obtain ⟨w, hw, rfl⟩ := (h.keys content).mp hmem
  refine ⟨w, hw, rfl, ?_⟩
  rw [h.lookup w hw] at hlookup
  exact (Option.some.inj hlookup).symm

theorem ContentsOf.step_new (h : ContentsOf ws m.origChanInfo)
    (hlookup : m.origChanInfo.lookup w.chanNameSameContent = none) :
    ContentsOf (ws ++ [w]) (m.origChanInfo ++ [(w.chanNameSameContent, w.orig)]) := by
  have hnew : ∀ w' ∈ ws, w'.chanNameSameContent ≠ w.chanNameSameContent := by
    intro w' hw' heq
    rw [← heq, h.lookup w' hw'] at hlookup
    cases hlookup
  have hkey : w.chanNameSameContent ∉ m.origChanInfo.map Prod.fst := by
    intro hmem
    obtain ⟨w', hw', heq⟩ := (h.keys _).mp hmem
    exact hnew w' hw' heq
  refine ⟨Assoc.nodup_concat h.nodup hkey, ?_, ?_⟩
  · intro content
    rw [List.map_append, List.mem_append, h.keys]
    constructor
    · intro hor
      obtain ⟨w', hw', heq⟩ | heq := hor
      · exact ⟨w', List.mem_append_left _ hw', heq⟩
      · exact ⟨w, by simp, by simpa [eq_comm] using heq⟩
    · intro ⟨w', hw', heq⟩
      rw [List.mem_append, List.mem_singleton] at hw'
      obtain hw' | rfl := hw'
      · exact .inl ⟨w', hw', heq⟩
      · exact .inr (by simp [heq])
  · intro w' hw'
    rw [List.mem_append, List.mem_singleton] at hw'
    obtain hw' | rfl := hw'
    · have hne := hnew w' hw'
      rw [Assoc.lookup_concat_of_ne hne, h.lookup w' hw', maxCapacity_concat_of_ne hne]
    · rw [Assoc.lookup_concat_self hkey, maxCapacity_concat_self, maxCapacity_none hnew, Nat.zero_max]

theorem ContentsOf.step_old (h : ContentsOf ws m.origChanInfo)
    (hlookup : m.origChanInfo.lookup w.chanNameSameContent = some orig) (hm : mergeContent m w = some m') :
    ContentsOf (ws ++ [w]) m'.origChanInfo := by
  obtain ⟨w₀, hw₀, hcontent, horig⟩ := h.of_lookup hlookup
  obtain ⟨hsize, _, _, hkeys, hlook⟩ := mergeContent_old hlookup hm
  refine ⟨?_, ?_, ?_⟩
  · rw [hkeys]
    exact h.nodup
  · intro content
    rw [hkeys, h.keys]
    constructor
    · intro ⟨w', hw', heq⟩
      exact ⟨w', List.mem_append_left _ hw', heq⟩
    · intro ⟨w', hw', heq⟩
      rw [List.mem_append, List.mem_singleton] at hw'
      obtain hw' | rfl := hw'
      · exact ⟨w', hw', heq⟩
      · exact ⟨w₀, hw₀, hcontent.trans heq⟩
  · intro w' hw'
    rw [List.mem_append, List.mem_singleton] at hw'
    rw [hlook]
    by_cases heq : w'.chanNameSameContent = w.chanNameSameContent
    · have hw'size : orig.tokenSize = w'.orig.tokenSize := by
        obtain hw' | rfl := hw'
        · have hlookup' := h.lookup w' hw'
          rw [heq, hlookup] at hlookup'
          cases hlookup'
          rfl
        · exact hsize
      rw [if_pos heq, heq, maxCapacity_concat_self, ← hw'size, horig]
    · rw [if_neg heq, maxCapacity_concat_of_ne heq]
      obtain hw' | rfl := hw'
      · exact h.lookup w' hw'
      · exact absurd rfl heq

theorem ContentsOf.step (h : ContentsOf ws m.origChanInfo) (hm : mergeContent m w = some m') :
    ContentsOf (ws ++ [w]) m'.origChanInfo := by
  cases hlookup : m.origChanInfo.lookup w.chanNameSameContent with
  | none =>
    rw [mergeContent_new hlookup hm]
    exact h.step_new hlookup
  | some orig => exact h.step_old hlookup hm

theorem ContentsOf.sameSize {origChanInfo : List (String × OrigChanInfo)} (h : ContentsOf ws origChanInfo) :
    SameSize ws := by
  intro w hw w' hw' heq
  have hlookup := h.lookup w hw
  rw [heq, h.lookup w' hw'] at hlookup
  simpa [eq_comm] using hlookup

theorem ContentsOf.length_eq_one {origChanInfo : List (String × OrigChanInfo)} (h : ContentsOf ws origChanInfo)
    (hne : ws ≠ []) (hall : ∀ w ∈ ws, w.chanNameSameContent = content) : origChanInfo.length = 1 := by
  have hkeys : ∀ n ∈ origChanInfo.map Prod.fst, n = content := by
    intro n hn
    obtain ⟨w, hw, rfl⟩ := (h.keys n).mp hn
    exact hall w hw
  obtain ⟨w, hw⟩ := List.exists_mem_of_ne_nil _ hne
  have hmem := (h.keys _).mpr ⟨w, hw, rfl⟩
  rw [← List.length_map (f := Prod.fst)]
  have hrep := List.eq_replicate_iff.mpr ⟨rfl, hkeys⟩
  have hnodup := h.nodup
  rw [hrep, List.nodup_replicate] at hnodup
  have hpos := List.length_pos_of_mem hmem
  omega

theorem mergeContent_isSome (h : ContentsOf ws m.origChanInfo) (hsame : SameSize (ws ++ [w])) :
    ∃ m', mergeContent m w = some m' := by
  unfold mergeContent
  cases hlookup : m.origChanInfo.lookup w.chanNameSameContent with
  | none => exact ⟨_, rfl⟩
  | some orig =>
    obtain ⟨w₀, hw₀, hcontent, rfl⟩ := h.of_lookup hlookup
    have hsize := hsame w₀ (List.mem_append_left _ hw₀) w (by simp) hcontent
    dsimp only
    rw [if_pos hsize]
    exact ⟨_, rfl⟩

theorem mergeContent_vi (hm : mergeContent m w = some m') : m'.viMergedChan = m.viMergedChan := by
  cases hlookup : m.origChanInfo.lookup w.chanNameSameContent with
  | none => rw [mergeContent_new hlookup hm]
  | some orig => exact (mergeContent_old hlookup hm).2.1

end

/-! ## Sizes -/

/-- The size of the channel, for one content or for all of them. -/
def Sized (t : Merging) (origChanInfo : List (String × OrigChanInfo)) : VertexType → Prop
  | .actor _ => False
  | .fifo tokenSize capacity _ => (∃ content, origChanInfo = [(content, ⟨tokenSize, capacity⟩)]) ∨
      (t = .sameProducer ∧ tokenSize = bufferSize origChanInfo ∧ capacity = 1)
  | .register tokenSize => (∃ content capacity, origChanInfo = [(content, ⟨tokenSize, capacity⟩)]) ∨
      (t = .sameProducer ∧ tokenSize = bufferSize origChanInfo)

section
variable {t : Merging} {ws : List Write} {w : Write} {content : String} {m m' : MergedChan} {orig : OrigChanInfo}
  {type type' type'' : VertexType}

theorem Sized.first {kind : String} (h : type.chan? = some (kind, orig)) : Sized t [(content, orig)] type := by
  cases type with
  | actor r => cases h
  | fifo =>
    cases h
    exact .inl ⟨content, rfl⟩
  | register =>
    cases h
    exact .inl ⟨content, 1, rfl⟩

/-- One content stays one if its number does not change. -/
theorem mergeContent_single (hone : m.origChanInfo = [(content, orig)]) (hm : mergeContent m w = some m')
    (hlen : m'.origChanInfo.length = 1) :
    ∃ capacity, m'.origChanInfo = [(content, ⟨orig.tokenSize, capacity⟩)] ∧
      m'.origChanInfo.lookup w.chanNameSameContent = some ⟨orig.tokenSize, capacity⟩ := by
  cases hlookup : m.origChanInfo.lookup w.chanNameSameContent with
  | none =>
    rw [mergeContent_new hlookup hm, hone] at hlen
    simp at hlen
  | some orig' =>
    obtain ⟨_, _, _, hkeys, hlook⟩ := mergeContent_old hlookup hm
    have hmem := Assoc.mem_of_lookup hlookup
    rw [hone, List.mem_singleton] at hmem
    cases hmem
    have hself := hlook w.chanNameSameContent
    rw [if_pos rfl] at hself
    obtain ⟨⟨content', orig''⟩, horig⟩ := List.length_eq_one_iff.mp hlen
    rw [horig, hone] at hkeys
    obtain rfl : content' = w.chanNameSameContent := by simpa using hkeys
    refine ⟨_, ?_, hself⟩
    rw [horig, List.lookup_cons_self] at hself
    rw [horig, Option.some.inj hself]

theorem Sized.step (h : Sized t m.origChanInfo type) (hm : mergeContent m w = some m')
    (htype : mergeType t m'.origChanInfo w.chanNameSameContent type type' = some type'') :
    Sized t m'.origChanInfo type'' ∧ type''.kind? = type.kind? := by
  unfold mergeType at htype
  cases type with
  | actor r => cases h
  | fifo tokenSize capacity delay =>
    cases type' with
    | actor r => cases htype
    | register => cases htype
    | fifo tokenSize' capacity' delay' =>
      cases t with
      | sameProducer =>
        cases htype
        exact ⟨.inr ⟨rfl, rfl, rfl⟩, rfl⟩
      | sameContent =>
        obtain ⟨orig, hlookup, htype⟩ := Option.bind_eq_some_iff.mp htype
        by_cases hlen : m'.origChanInfo.length = 1
        · rw [if_pos hlen] at htype
          cases htype
          obtain ⟨content, hone⟩ | ⟨ht, _⟩ := h
          · obtain ⟨cap, hone', hself⟩ := mergeContent_single hone hm hlen
            rw [hlookup] at hself
            cases hself
            exact ⟨.inl ⟨content, hone'⟩, rfl⟩
          · cases ht
        · rw [if_neg hlen] at htype
          cases htype
  | register tokenSize =>
    cases type' with
    | actor r => cases htype
    | fifo => cases htype
    | register tokenSize' =>
      cases t with
      | sameProducer =>
        cases htype
        exact ⟨.inr ⟨rfl, rfl⟩, rfl⟩
      | sameContent =>
        dsimp only at htype
        by_cases hlen : m'.origChanInfo.length = 1
        · rw [if_pos hlen] at htype
          cases htype
          obtain ⟨content, capacity, hone⟩ | ⟨ht, _⟩ := h
          · obtain ⟨cap, hone', _⟩ := mergeContent_single hone hm hlen
            exact ⟨.inl ⟨content, cap, hone'⟩, rfl⟩
          · cases ht
        · rw [if_neg hlen] at htype
          cases htype

theorem mergeType_isSome (hkind : type.kind? = type'.kind?) (hchan : type.chan?.isSome)
    {origChanInfo : List (String × OrigChanInfo)} (hlookup : (origChanInfo.lookup content).isSome)
    (hlen : t = .sameContent → origChanInfo.length = 1) :
    (mergeType t origChanInfo content type type').isSome := by
  obtain ⟨orig, hlookup⟩ := Option.isSome_iff_exists.mp hlookup
  unfold mergeType
  cases type with
  | actor r => cases hchan
  | fifo =>
    cases type' with
    | actor r => cases hkind
    | register => simp [VertexType.kind?, VertexType.chan?] at hkind
    | fifo =>
      cases t with
      | sameProducer => rfl
      | sameContent => simp [hlookup, hlen rfl]
  | register =>
    cases type' with
    | actor r => cases hkind
    | fifo => simp [VertexType.kind?, VertexType.chan?] at hkind
    | register =>
      cases t with
      | sameProducer => rfl
      | sameContent => simp [hlen rfl]

end

/-! ## Edges -/

theorem EdgeInfo.value_merge (ei ei' : EdgeInfo) : (ei.merge ei').value = (ei.value + ei'.value) % 2 ^ 64 := by
  simp [EdgeInfo.merge, EdgeInfo.value]

/-- The value is the sum, up to what a `size_t` cannot hold. -/
def EdgeInfo.Holds (ei : EdgeInfo) (sum : Nat) : Prop :=
  ei.value % 2 ^ 64 = sum % 2 ^ 64 ∧ (ei.value = sum ∨ ei.value < 2 ^ 64)

theorem EdgeInfo.Holds.eq {ei : EdgeInfo} {sum : Nat} (h : ei.Holds sum) (hsum : sum < 2 ^ 64) : ei.value = sum := by
  obtain ⟨hmod, heq | hlt⟩ := h
  · exact heq
  · rwa [Nat.mod_eq_of_lt hlt, Nat.mod_eq_of_lt hsum] at hmod

theorem EdgeInfo.Holds.merge {ei ei' : EdgeInfo} {sum : Nat} (h : ei.Holds sum) :
    (ei.merge ei').Holds (sum + ei'.value) := by
  unfold EdgeInfo.Holds at *
  rw [EdgeInfo.value_merge]
  refine ⟨?_, .inr (Nat.mod_lt _ (by decide))⟩
  rw [Nat.mod_mod, Nat.add_mod, h.1, ← Nat.add_mod]

/-- One write of each content makes up the edge. -/
def EdgeOf (ws : List Write) (origChanInfo : List (String × OrigChanInfo)) (ei : EdgeInfo) : Prop :=
  ∃ firsts : List Write, (∀ w ∈ firsts, w ∈ ws) ∧
    firsts.map (·.chanNameSameContent) = origChanInfo.map Prod.fst ∧
    ei.Holds (firsts.map (·.eiEdge.value)).sum

section
variable {t : Merging} {ws : List Write} {w : Write} {m m' : MergedChan}

theorem EdgeOf.first (w : Write) : EdgeOf [w] [(w.chanNameSameContent, w.orig)] w.eiEdge := by
  refine ⟨[w], fun _ h => h, rfl, ?_⟩
  unfold EdgeInfo.Holds
  simp

theorem EdgeOf.step (h : EdgeOf ws m.origChanInfo m.eiMergedEdge) (hm : mergeContent m w = some m') :
    EdgeOf (ws ++ [w]) m'.origChanInfo m'.eiMergedEdge := by
  obtain ⟨firsts, hmem, hkeys, hholds⟩ := h
  cases hlookup : m.origChanInfo.lookup w.chanNameSameContent with
  | none =>
    rw [mergeContent_new hlookup hm]
    refine ⟨firsts ++ [w], ?_, ?_, ?_⟩
    · intro w' hw'
      rw [List.mem_append] at hw' ⊢
      exact hw'.imp_left (hmem w')
    · rw [List.map_append, List.map_append, hkeys]
      rfl
    · rw [List.map_append, List.sum_append]
      have hmerge : (m.eiMergedEdge.merge w.eiEdge).Holds
          ((firsts.map (·.eiEdge.value)).sum + w.eiEdge.value) := hholds.merge
      simpa using hmerge
  | some orig =>
    obtain ⟨_, _, hedge, hkeys', _⟩ := mergeContent_old hlookup hm
    rw [hedge]
    refine ⟨firsts, fun w' hw' => List.mem_append_left _ (hmem w' hw'), ?_, hholds⟩
    rw [hkeys, hkeys']

/-- What a merged channel is, for the writes merged into it. -/
structure MergedOf (t : Merging) (ws : List Write) (m : MergedChan) : Prop where
  contents : ContentsOf ws m.origChanInfo
  kind : ∀ w ∈ ws, m.viMergedChan.type.kind? = w.viChan.type.kind?
  sized : Sized t m.origChanInfo m.viMergedChan.type
  edge : EdgeOf ws m.origChanInfo m.eiMergedEdge

theorem MergedOf.first {vi : VertexInfo} (h : w.Of vi) : MergedOf t [w] (firstWrite w) := by
  obtain ⟨kind, hchan, _⟩ := h
  refine ⟨.first w, ?_, .first hchan, .first w⟩
  intro w' hw'
  rw [List.mem_singleton.mp hw']
  rfl

theorem MergedOf.step (h : MergedOf t ws m) (hkind : m.viMergedChan.type.kind? = w.viChan.type.kind?)
    (hm : mergeWrite t m w = some m') : MergedOf t (ws ++ [w]) m' := by
  obtain ⟨m₁, hcontent, hm⟩ := Option.bind_eq_some_iff.mp hm
  obtain ⟨type, htype, hm⟩ := Option.bind_eq_some_iff.mp hm
  cases hm
  rw [mergeContent_vi hcontent] at htype
  obtain ⟨hsized, hsame⟩ := h.sized.step hcontent htype
  have hcontents := h.contents.step hcontent
  have hedge := h.edge.step hcontent
  refine ⟨hcontents, ?_, hsized, hedge⟩
  intro w' hw'
  rw [List.mem_append, List.mem_singleton] at hw'
  obtain hw' | rfl := hw'
  · exact hsame.trans (h.kind w' hw')
  · exact hsame.trans hkind

theorem MergedOf.isSome (h : MergedOf t ws m) (hkind : m.viMergedChan.type.kind? = w.viChan.type.kind?)
    (hsame : SameSize (ws ++ [w])) {name : String} (hname : ∀ w' ∈ ws ++ [w], w'.chanName t = name) :
    (mergeWrite t m w).isSome := by
  obtain ⟨m₁, hcontent⟩ := mergeContent_isSome h.contents hsame
  have hcontents := h.contents.step hcontent
  have hchan : m.viMergedChan.type.chan?.isSome := by
    have hsized := h.sized
    cases htype : m.viMergedChan.type with
    | actor r =>
      rw [htype] at hsized
      cases hsized
    | fifo => rfl
    | register => rfl
  have htype : (mergeType t m₁.origChanInfo w.chanNameSameContent m.viMergedChan.type w.viChan.type).isSome := by
    refine mergeType_isSome hkind hchan ?_ ?_
    · rw [hcontents.lookup w (by simp)]
      rfl
    · intro ht
      subst ht
      exact hcontents.length_eq_one (by simp) hname
  obtain ⟨type, htype⟩ := Option.isSome_iff_exists.mp htype
  unfold mergeWrite
  rw [hcontent, Option.bind_eq_bind, Option.bind_some, mergeContent_vi hcontent, htype]
  rfl

end

/-! ## Groups of writes -/

section
variable {t : Merging} {ws : List Write} {m : MergedChan} {vi : VertexInfo} {name : String}

theorem MergedOf.kind_next {w : Write} (h : MergedOf t ws m) (hne : ws ≠ [])
    (hws : ∀ w' ∈ ws ++ [w], w'.Of vi ∧ w'.chanName t = name) : m.viMergedChan.type.kind? = w.viChan.type.kind? := by
  obtain ⟨w₀, hw₀⟩ := List.exists_mem_of_ne_nil _ hne
  obtain ⟨hof₀, hname₀⟩ := hws w₀ (List.mem_append_left _ hw₀)
  obtain ⟨hof, hname⟩ := hws w (by simp)
  rw [h.kind w₀ hw₀]
  exact hof₀.kind_eq hof (hname₀.trans hname.symm)

theorem mergedOf_fold (hws : ∀ w ∈ ws, w.Of vi ∧ w.chanName t = name)
    (h : Grouping.fold firstWrite (mergeWrite t) ws = some m) : MergedOf t ws m := by
  revert hws
  refine Grouping.fold_induction (P := fun ws m => (∀ w ∈ ws, w.Of vi ∧ w.chanName t = name) → MergedOf t ws m)
    ?_ ?_ h
  · intro w hws
    exact MergedOf.first (hws w (by simp)).1
  · intro ws w m m' hfold ih hnext hws
    have hm := ih fun w' hw' => hws w' (List.mem_append_left _ hw')
    exact hm.step (hm.kind_next (Grouping.fold_ne_nil hfold) hws) hnext

theorem SameSize.of_subset {ws' : List Write} (h : SameSize ws') (hsub : ws ⊆ ws') : SameSize ws :=
  fun w hw w' hw' heq => h w (hsub hw) w' (hsub hw') heq

theorem fold_isSome (hws : ∀ w ∈ ws, w.Of vi ∧ w.chanName t = name) (hsame : SameSize ws) (hne : ws ≠ []) :
    (Grouping.fold firstWrite (mergeWrite t) ws).isSome := by
  induction ws using List.reverseRecOn with
  | nil => exact absurd rfl hne
  | append_singleton ws w ih =>
    by_cases hnil : ws = []
    · subst hnil
      rfl
    · obtain ⟨m, hfold⟩ := Option.isSome_iff_exists.mp (ih (fun w' hw' => hws w' (List.mem_append_left _ hw'))
        (hsame.of_subset (List.subset_append_left _ _)) hnil)
      have hm := mergedOf_fold (fun w' hw' => hws w' (List.mem_append_left _ hw')) hfold
      rw [Grouping.fold_concat_of hfold]
      exact hm.isSome (hm.kind_next hnil hws) hsame fun w' hw' => (hws w' hw').2

theorem mergedOf (hof : ∀ w ∈ ws, w.Of vi) (h : merged t ws name = some m) :
    MergedOf t (Grouping.group (·.chanName t) ws name) m := by
  have hws : ∀ w ∈ Grouping.group (·.chanName t) ws name, w.Of vi ∧ w.chanName t = name := by
    intro w hw
    obtain ⟨hw, hname⟩ := Grouping.mem_group.mp hw
    exact ⟨hof w hw, hname⟩
  exact mergedOf_fold hws h

/-- Writes are merged just when one content has one size. -/
theorem merges_iff (hof : ∀ w ∈ ws, w.Of vi) : Merges t ws ↔ SameSize ws := by
  constructor
  · intro hmerges w hw w' hw' heq
    have hname : w.chanName t = w'.chanName t := by
      cases t with
      | sameContent => exact heq
      | sameProducer =>
        have hkind := (((hof w hw).content_eq_iff (hof w' hw')).mp heq).1
        obtain ⟨kind, hchan, _, hproducer⟩ := hof w hw
        obtain ⟨kind', hchan', _, hproducer'⟩ := hof w' hw'
        unfold VertexType.kind? at hkind
        rw [hchan, hchan', Option.map_some, Option.map_some, Option.some.injEq] at hkind
        simp only at hkind
        simp only [Write.chanName, hproducer, hproducer', hkind]
    obtain ⟨m, hm⟩ := Option.isSome_iff_exists.mp (hmerges w hw)
    have hsame := (mergedOf hof hm).contents.sameSize
    exact hsame w (Grouping.mem_group.mpr ⟨hw, rfl⟩) w' (Grouping.mem_group.mpr ⟨hw', hname.symm⟩) heq
  · intro hsame w hw
    have hws : ∀ w' ∈ Grouping.group (·.chanName t) ws (w.chanName t),
        w'.Of vi ∧ w'.chanName t = w.chanName t := by
      intro w' hw'
      obtain ⟨hw', hname⟩ := Grouping.mem_group.mp hw'
      exact ⟨hof w' hw', hname⟩
    have hsub : Grouping.group (·.chanName t) ws (w.chanName t) ⊆ ws :=
      fun w' hw' => (Grouping.mem_group.mp hw').1
    exact fold_isSome hws (hsame.of_subset hsub) (Grouping.group_ne_nil (f := (Write.chanName · t)) hw)

end

theorem readWrite_of {g : Graph} {vi : VertexInfo} {e : Edge} {w : Write} (h : readWrite g vi e = some w) : w.Of vi := by
  obtain ⟨_, hei, _, kind, hchan, hcontent, hproducer⟩ := readWrite_some h
  refine ⟨kind, hchan, ?_, hproducer⟩
  rw [hcontent, hei]

theorem Graph.writes_of {g : Graph} {v : Nat} {vi : VertexInfo} (hget : g.vertices[v]? = some vi) :
    ∀ w ∈ g.writes v, w.Of vi := by
  intro w hw
  obtain ⟨e, _, he⟩ := (Graph.mem_writes hget).mp hw
  exact readWrite_of he

end SysteMoC.SNG