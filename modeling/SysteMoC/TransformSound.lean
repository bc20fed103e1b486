import SysteMoC.Transform
import SysteMoC.Labelled
import SysteMoC.Grouping

/-!
# What a transformation builds

Each vertex of the result is the copy of an actor, the channel merged from the writes of an
actor under one name, or the copy of a channel no actor writes. The two passes build the
graph these labels describe.
-/

namespace SysteMoC.SNG

inductive Copied where
  | actor (v : Nat)
  | chan (v : Nat) (name : String)
  | channel (c : Nat)
deriving DecidableEq

inductive Link where
  | write (v : Nat) (name : String)
  | read (l : Copied) (v : Nat)
deriving DecidableEq

namespace Link

def source : Link → Copied
  | write v _ => .actor v
  | read l _ => l

def target : Link → Copied
  | write v name => .chan v name
  | read _ v => .actor v

end Link

structure Described (info : Copied → Option VertexInfo) (einfo : Link → Option EdgeInfo) (L : List Copied)
    (E : List Link) (g : Graph) : Prop where
  vertices : Labelled L info g.vertices
  edges : Labelled E (fun k => (einfo k).map fun ei => (⟨ei, L.idxOf k.source, L.idxOf k.target⟩ : Edge)) g.edges
  ends : ∀ k ∈ E, k.source ∈ L ∧ k.target ∈ L

namespace Described

variable {info info' : Copied → Option VertexInfo} {einfo einfo' : Link → Option EdgeInfo} {L : List Copied}
  {E : List Link} {g : Graph} {l : Copied} {k : Link} {vi : VertexInfo} {ei : EdgeInfo}

theorem congr (h : Described info einfo L E g) (hinfo : ∀ l ∈ L, info' l = info l)
    (heinfo : ∀ k ∈ E, einfo' k = einfo k) : Described info' einfo' L E g := by
  refine ⟨h.vertices.congr hinfo, h.edges.congr ?_, h.ends⟩
  intro k hk
  rw [heinfo k hk]

theorem addVertex (h : Described info einfo L E g) (hl : l ∉ L) (hinfo : ∀ l ∈ L, info' l = info l)
    (hv : info' l = some vi) : Described info' einfo (L ++ [l]) E (g.addVertex vi) := by
  refine ⟨h.vertices.concat hl hinfo hv, h.edges.congr ?_, ?_⟩
  · intro k hk
    rw [List.idxOf_append_of_mem (h.ends k hk).1, List.idxOf_append_of_mem (h.ends k hk).2]
  · intro k hk
    exact ⟨List.mem_append_left _ (h.ends k hk).1, List.mem_append_left _ (h.ends k hk).2⟩

theorem addEdge (h : Described info einfo L E g) (hk : k ∉ E) (hends : k.source ∈ L ∧ k.target ∈ L)
    (heinfo : ∀ k ∈ E, einfo' k = einfo k) (hei : einfo' k = some ei) :
    Described info einfo' L (E ++ [k]) (g.addEdge (L.idxOf k.source) (L.idxOf k.target) ei) := by
  refine ⟨h.vertices, h.edges.concat hk ?_ ?_, ?_⟩
  · intro k hk
    rw [heinfo k hk]
  · rw [hei]
    rfl
  · intro k' hk'
    rw [List.mem_append, List.mem_singleton] at hk'
    obtain hk' | rfl := hk'
    · exact h.ends k' hk'
    · exact hends

theorem set (h : Described info einfo L E g) (hinfo : ∀ l' ∈ L, l' ≠ l → info' l' = info l')
    (heinfo : ∀ k' ∈ E, k' ≠ k → einfo' k' = einfo k') (hv : info' l = some vi) (hei : einfo' k = some ei) :
    Described info' einfo' L E ⟨g.vertices.set (L.idxOf l) vi,
      g.edges.set (E.idxOf k) ⟨ei, L.idxOf k.source, L.idxOf k.target⟩⟩ := by
  refine ⟨h.vertices.set hinfo hv, h.edges.set ?_ ?_, h.ends⟩
  · intro k' hk' hne
    rw [heinfo k' hk' hne]
  · rw [hei]
    rfl

theorem getVertex (h : Described info einfo L E g) (hl : l ∈ L) : g.vertices[L.idxOf l]? = info l := h.vertices.get hl

theorem getEdge (h : Described info einfo L E g) (hk : k ∈ E) (hei : einfo k = some ei) :
    g.edges[E.idxOf k]? = some ⟨ei, L.idxOf k.source, L.idxOf k.target⟩ := by
  rw [h.edges.get hk, hei]
  rfl

end Described

/-! ## What the labels stand for -/

/-- The channel merged from the writes with one name. -/
def merged (t : Merging) (ws : List Write) (name : String) : Option MergedChan :=
  Grouping.fold firstWrite (mergeWrite t) (Grouping.group (·.chanName t) ws name)

/-- The edge merged from the reads of one copy. -/
def mergedRead (place : Nat → Copied) (es : List Edge) (l : Copied) : Option EdgeInfo :=
  Grouping.fold (·.toEdgeInfo) (fun ei e => some (ei.merge e.toEdgeInfo))
    (Grouping.group (fun e => place e.source) es l)

def copiedInfo (g : Graph) (t : Merging) (writes : Nat → List Write) : Copied → Option VertexInfo
  | .actor v => g.vertices[v]?
  | .chan v name => (merged t (writes v) name).map (·.viMergedChan)
  | .channel c => g.vertices[c]?

def linkInfo (t : Merging) (writes : Nat → List Write) (place : Nat → Copied) (reads : Nat → List Edge) :
    Link → Option EdgeInfo
  | .write v name => (merged t (writes v) name).map (·.eiMergedEdge)
  | .read l v => mergedRead place (reads v) l

@[simp] theorem copiedInfo_actor (g : Graph) (t : Merging) (P : Nat → List Write) (v : Nat) :
    copiedInfo g t P (.actor v) = g.vertices[v]? := rfl

@[simp] theorem copiedInfo_chan (g : Graph) (t : Merging) (P : Nat → List Write) (v : Nat) (name : String) :
    copiedInfo g t P (.chan v name) = (merged t (P v) name).map (·.viMergedChan) := rfl

@[simp] theorem copiedInfo_channel (g : Graph) (t : Merging) (P : Nat → List Write) (c : Nat) :
    copiedInfo g t P (.channel c) = g.vertices[c]? := rfl

@[simp] theorem linkInfo_write (t : Merging) (P : Nat → List Write) (place : Nat → Copied) (reads : Nat → List Edge)
    (v : Nat) (name : String) :
    linkInfo t P place reads (.write v name) = (merged t (P v) name).map (·.eiMergedEdge) := rfl

@[simp] theorem linkInfo_read (t : Merging) (P : Nat → List Write) (place : Nat → Copied) (reads : Nat → List Edge)
    (l : Copied) (v : Nat) : linkInfo t P place reads (.read l v) = mergedRead place (reads v) l := rfl

def IsWritten (t : Merging) (as : List Nat) (writes : Nat → List Write) : Copied → Prop
  | .actor v => v ∈ as
  | .chan v name => v ∈ as ∧ ∃ w ∈ writes v, w.chanName t = name
  | .channel _ => False

@[simp] theorem isWritten_actor {t : Merging} {as : List Nat} {P : Nat → List Write} {v : Nat} :
    IsWritten t as P (.actor v) ↔ v ∈ as := Iff.rfl

@[simp] theorem isWritten_chan {t : Merging} {as : List Nat} {P : Nat → List Write} {v : Nat} {name : String} :
    IsWritten t as P (.chan v name) ↔ v ∈ as ∧ ∃ w ∈ P v, w.chanName t = name := Iff.rfl

@[simp] theorem isWritten_channel {t : Merging} {as : List Nat} {P : Nat → List Write} {c : Nat} :
    ¬ IsWritten t as P (.channel c) := id

/-- Where the first pass puts a vertex: a channel goes with its first write. -/
def firstPlace (t : Merging) (as : List Nat) (writes : Nat → List Write) (u : Nat) : Option Copied :=
  if u ∈ as then some (.actor u)
  else as.findSome? fun v => ((writes v).find? (·.vdChan = u)).map fun w => .chan v (w.chanName t)

section
variable {t : Merging} {ws : List Write} {w : Write} {name : String} {m : MergedChan}

theorem merged_first (hname : ∀ w' ∈ ws, w'.chanName t ≠ w.chanName t) :
    merged t (ws ++ [w]) (w.chanName t) = some (firstWrite w) := by
  unfold merged
  rw [Grouping.group_concat_self (f := (Write.chanName · t)), Grouping.group_eq_nil.mpr hname]
  rfl

theorem merged_next (h : merged t ws (w.chanName t) = some m) :
    merged t (ws ++ [w]) (w.chanName t) = mergeWrite t m w := by
  unfold merged at *
  rw [Grouping.group_concat_self (f := (Write.chanName · t)), Grouping.fold_concat_of h]

theorem merged_other (hname : name ≠ w.chanName t) : merged t (ws ++ [w]) name = merged t ws name := by
  unfold merged
  rw [Grouping.group_concat_of_ne (f := (Write.chanName · t)) hname]

theorem merged_mem (h : merged t ws name = some m) : ∃ w ∈ ws, w.chanName t = name := by
  obtain ⟨w, hw⟩ := List.exists_mem_of_ne_nil _ (Grouping.fold_ne_nil h)
  exact ⟨w, Grouping.mem_group.mp hw⟩

theorem merged_none (h : ∀ w ∈ ws, w.chanName t ≠ name) : merged t ws name = none := by
  unfold merged
  rw [Grouping.group_eq_nil.mpr h]
  rfl

end

/-! ## Places -/

theorem insertVertex_apply (m : Nat → Option Nat) (k vd u : Nat) :
    insertVertex m k vd u = if u = k ∧ m k = none then some vd else m u := by
  unfold insertVertex
  by_cases hu : u = k
  · subst hu
    cases hm : m u <;> simp [hm]
  · by_cases hm : (m k).isSome
    · simp [hu, hm]
    · simp [hu, hm]

section
variable {t : Merging} {as : List Nat} {P P' : Nat → List Write} {u v : Nat} {w : Write} {l : Copied}

theorem firstPlace_congr (h : ∀ v ∈ as, P' v = P v) (u : Nat) : firstPlace t as P' u = firstPlace t as P u := by
  unfold firstPlace
  by_cases hu : u ∈ as
  · rw [if_pos hu, if_pos hu]
  · rw [if_neg hu, if_neg hu]
    clear hu
    induction as with
    | nil => rfl
    | cons a as ih =>
      rw [List.findSome?_cons, List.findSome?_cons, h a List.mem_cons_self,
        ih fun v hv => h v (List.mem_cons_of_mem _ hv)]

theorem firstPlace_isWritten (h : firstPlace t as P u = some l) : IsWritten t as P l := by
  unfold firstPlace at h
  by_cases hu : u ∈ as
  · rw [if_pos hu] at h
    cases h
    exact hu
  · rw [if_neg hu] at h
    obtain ⟨v, hv, hl⟩ := List.exists_of_findSome?_eq_some h
    obtain ⟨w, hw, rfl⟩ := Option.map_eq_some_iff.mp hl
    exact ⟨hv, w, List.mem_of_find?_eq_some hw, rfl⟩

theorem firstPlace_actor (hP : P v = []) (hnew : firstPlace t as P v = none) (u : Nat) :
    firstPlace t (as ++ [v]) P u = if u = v then some (.actor v) else firstPlace t as P u := by
  unfold firstPlace
  by_cases hu : u ∈ as
  · have hne : u ≠ v := by
      intro heq
      unfold firstPlace at hnew
      rw [if_pos (heq ▸ hu)] at hnew
      cases hnew
    rw [if_pos (List.mem_append_left _ hu), if_neg hne, if_pos hu]
  · by_cases huv : u = v
    · subst huv
      simp
    · rw [if_neg (by simp [hu, huv]), if_neg huv, if_neg hu, List.findSome?_append]
      simp [hP]

theorem firstPlace_write (hv : v ∉ as) (hw : w.vdChan ∉ as ++ [v]) (u : Nat) :
    firstPlace t (as ++ [v]) (Function.update P v (P v ++ [w])) u =
      if u = w.vdChan ∧ firstPlace t (as ++ [v]) P w.vdChan = none then some (.chan v (w.chanName t))
      else firstPlace t (as ++ [v]) P u := by
  have hother : ∀ u, u ∉ as ++ [v] → firstPlace t (as ++ [v]) P u =
      (as.findSome? fun v => ((P v).find? (·.vdChan = u)).map fun w => .chan v (w.chanName t)).or
        (((P v).find? (·.vdChan = u)).map fun w => .chan v (w.chanName t)) := by
    intro u hu
    unfold firstPlace
    rw [if_neg hu, List.findSome?_append]
    simp
  have hnew : ∀ u, u ∉ as ++ [v] → firstPlace t (as ++ [v]) (Function.update P v (P v ++ [w])) u =
      (firstPlace t (as ++ [v]) P u).or (if w.vdChan = u then some (.chan v (w.chanName t)) else none) := by
    intro u hu
    have hold : (as.findSome? fun v' => ((Function.update P v (P v ++ [w]) v').find? (·.vdChan = u)).map
        fun w => Copied.chan v' (w.chanName t)) =
        as.findSome? fun v => ((P v).find? (·.vdChan = u)).map fun w => .chan v (w.chanName t) := by
      have hcongr : firstPlace t as (Function.update P v (P v ++ [w])) u = firstPlace t as P u := by
        refine firstPlace_congr ?_ u
        intro v' hv'
        rw [Function.update_of_ne]
        intro heq
        exact hv (heq ▸ hv')
      have huas : u ∉ as := fun h => hu (List.mem_append_left _ h)
      unfold firstPlace at hcongr
      rwa [if_neg huas, if_neg huas] at hcongr
    rw [hother u hu]
    unfold firstPlace
    rw [if_neg hu, List.findSome?_append, hold, Option.or_assoc]
    congr 1
    simp only [List.findSome?_cons, List.findSome?_nil, Function.update_self, List.find?_append]
    cases (P v).find? (·.vdChan = u) with
    | some w' => simp
    | none =>
      by_cases huw : w.vdChan = u
      · simp [huw]
      · simp [huw]
  by_cases hu : u ∈ as ++ [v]
  · have hne : u ≠ w.vdChan := fun heq => hw (heq ▸ hu)
    rw [if_neg (fun h => hne h.1)]
    unfold firstPlace
    rw [if_pos hu, if_pos hu]
  · rw [hnew u hu]
    by_cases huw : u = w.vdChan
    · subst huw
      cases firstPlace t (as ++ [v]) P w.vdChan <;> simp
    · rw [if_neg (Ne.symm huw), if_neg (fun h => huw h.1), Option.or_none]

end

/-! ## The first pass -/

/-- After the actors `as` with the writes `P`. -/
structure Written (t : Merging) (g : Graph) (as : List Nat) (P : Nat → List Write) (L : List Copied) (E : List Link)
    (gout : Graph) (vertexMap : Nat → Option Nat) : Prop where
  described : ∀ place reads, Described (copiedInfo g t P) (linkInfo t P place reads) L E gout
  labels : ∀ l, l ∈ L ↔ IsWritten t as P l
  links : ∀ k, k ∈ E ↔ match k with
    | .write v name => .chan v name ∈ L
    | .read _ _ => False
  map : ∀ u, vertexMap u = (firstPlace t as P u).map L.idxOf

/-- In the loop over the out-edges of `v`. -/
structure Writing (t : Merging) (g : Graph) (as : List Nat) (v : Nat) (P : Nat → List Write) (L : List Copied)
    (E : List Link) (s : WriteState) : Prop extends Written t g (as ++ [v]) P L E s.gout s.vertexMap where
  merged : ∀ name, s.mergedVertices name =
    (merged t (P v) name).map fun m => ⟨L.idxOf (.chan v name), E.idxOf (.write v name), m.origChanInfo⟩

section
variable {t : Merging} {g : Graph} {as : List Nat} {v vdSrcActor : Nat} {P P' : Nat → List Write} {L : List Copied}
  {E : List Link} {s : WriteState} {w : Write} {e : Edge} {vi : VertexInfo} {m : MergedChan} {gout : Graph}
  {vertexMap : Nat → Option Nat}

theorem Written.congr (h : Written t g as P L E gout vertexMap) (hP : ∀ v ∈ as, P' v = P v) :
    Written t g as P' L E gout vertexMap := by
  have hwritten : ∀ l, IsWritten t as P' l ↔ IsWritten t as P l := by
    intro l
    cases l with
    | actor v => rfl
    | chan v name =>
      unfold IsWritten
      constructor
      · intro ⟨hv, hw⟩
        exact ⟨hv, hP v hv ▸ hw⟩
      · intro ⟨hv, hw⟩
        exact ⟨hv, (hP v hv).symm ▸ hw⟩
    | channel c => rfl
  refine ⟨fun place reads => (h.described place reads).congr ?_ ?_, ?_, h.links, ?_⟩
  · intro l hl
    cases l with
    | actor v => rfl
    | chan v name => rw [copiedInfo_chan, copiedInfo_chan, hP v ((h.labels _).mp hl).1]
    | channel c => rfl
  · intro k hk
    cases k with
    | write v name => rw [linkInfo_write, linkInfo_write, hP v ((h.labels _).mp ((h.links _).mp hk)).1]
    | read l v => rfl
  · intro l
    rw [h.labels, hwritten]
  · intro u
    rw [h.map, firstPlace_congr hP]

theorem Written.chan (h : Written t g as P L E gout vertexMap) (hv : v ∈ as) {name : String}
    (hm : merged t (P v) name = some m) :
    .chan v name ∈ L ∧ .write v name ∈ E ∧ gout.vertices[L.idxOf (.chan v name)]? = some m.viMergedChan ∧
      gout.edges[E.idxOf (.write v name)]? =
        some ⟨m.eiMergedEdge, L.idxOf (.actor v), L.idxOf (.chan v name)⟩ := by
  have hlab : Copied.chan v name ∈ L := (h.labels _).mpr ⟨hv, merged_mem hm⟩
  have hlink : Link.write v name ∈ E := (h.links _).mpr hlab
  have hd := h.described (fun _ => .actor 0) fun _ => []
  refine ⟨hlab, hlink, ?_, ?_⟩
  · rw [hd.getVertex hlab, copiedInfo_chan, hm]
    rfl
  · refine hd.getEdge hlink ?_
    rw [linkInfo_write, hm]
    rfl

theorem Written.merged_none (h : Written t g as P L E gout vertexMap) (hv : v ∈ as) {name : String}
    (hm : merged t (P v) name = none) : ∀ w ∈ P v, w.chanName t ≠ name := by
  intro w hw hname
  have hlab := (h.labels (.chan v name)).mpr ⟨hv, w, hw, hname⟩
  have hsome := (h.described (fun _ => .actor 0) fun _ => []).vertices.isSome hlab
  rw [copiedInfo_chan, hm] at hsome
  cases hsome

theorem Writing.step_none (h : Writing t g as v P L E s) (hw : readWrite g vi e = some w)
    (hm : SNG.merged t (P v ++ [w]) (w.chanName t) = none) : addWrite t g vi vdSrcActor s e = none := by
  have hv : v ∈ as ++ [v] := by simp
  cases hold : SNG.merged t (P v) (w.chanName t) with
  | none =>
    rw [merged_first (h.merged_none hv hold)] at hm
    cases hm
  | some m =>
    rw [merged_next hold] at hm
    obtain ⟨_, _, hvertex, hedge⟩ := h.chan hv hold
    unfold addWrite
    simp only [hw, Option.bind_eq_bind, Option.bind_some, h.merged, hold, Option.map_some]
    unfold addChan mergeIntoChan
    simp only [hvertex, hedge, Option.bind_eq_bind, Option.bind_some]
    rw [hm]
    rfl

theorem isWritten_write (l : Copied) :
    IsWritten t (as ++ [v]) (Function.update P v (P v ++ [w])) l ↔
      IsWritten t (as ++ [v]) P l ∨ l = .chan v (w.chanName t) := by
  cases l with
  | actor u => simp
  | channel c => simp
  | chan u name =>
    rw [isWritten_chan, isWritten_chan]
    by_cases hu : u = v
    · subst hu
      simp only [Function.update_self, List.mem_append, List.mem_singleton, or_true, true_and, Copied.chan.injEq]
      constructor
      · intro ⟨w', hw', hname⟩
        obtain hw' | rfl := hw'
        · exact .inl ⟨w', hw', hname⟩
        · exact .inr hname.symm
      · intro h
        obtain ⟨w', hw', hname⟩ | rfl := h
        · exact ⟨w', .inl hw', hname⟩
        · exact ⟨w, .inr rfl, rfl⟩
    · rw [Function.update_of_ne hu]
      simp [hu]

theorem copiedInfo_update {l : Copied} (hne : l ≠ .chan v (w.chanName t)) :
    copiedInfo g t (Function.update P v (P v ++ [w])) l = copiedInfo g t P l := by
  cases l with
  | actor u => rfl
  | channel c => rfl
  | chan u name =>
    rw [copiedInfo_chan, copiedInfo_chan]
    by_cases hu : u = v
    · subst hu
      rw [Function.update_self, merged_other]
      intro hname
      exact hne (by rw [hname])
    · rw [Function.update_of_ne hu]

theorem linkInfo_update {k : Link} {place : Nat → Copied} {reads : Nat → List Edge}
    (hne : k ≠ .write v (w.chanName t)) :
    linkInfo t (Function.update P v (P v ++ [w])) place reads k = linkInfo t P place reads k := by
  cases k with
  | read l u => rfl
  | write u name =>
    rw [linkInfo_write, linkInfo_write]
    by_cases hu : u = v
    · subst hu
      rw [Function.update_self, merged_other]
      intro hname
      exact hne (by rw [hname])
    · rw [Function.update_of_ne hu]

theorem Writing.map_idxOf (h : Writing t g as v P L E s) (l : Copied) (u : Nat) :
    (firstPlace t (as ++ [v]) P u).map (L ++ [l]).idxOf = s.vertexMap u := by
  rw [h.map]
  cases hu : firstPlace t (as ++ [v]) P u with
  | none => rfl
  | some l' =>
    have hmem := (h.labels l').mpr (firstPlace_isWritten hu)
    rw [Option.map_some, Option.map_some, List.idxOf_append_of_mem hmem]

theorem Writing.step_first (h : Writing t g as v P L E s) (hv : v ∉ as) (hw : readWrite g vi e = some w)
    (hchan : w.vdChan ∉ as ++ [v]) (hnew : ∀ w' ∈ P v, w'.chanName t ≠ w.chanName t) :
    ∃ s', addWrite t g vi (L.idxOf (.actor v)) s e = some s' ∧
      Writing t g as v (Function.update P v (P v ++ [w])) (L ++ [.chan v (w.chanName t)])
        (E ++ [.write v (w.chanName t)]) s' := by
  have hfirst := merged_first hnew
  have hnone := SNG.merged_none hnew
  have hactor : Copied.actor v ∈ L := (h.labels _).mpr (by simp)
  have hl : Copied.chan v (w.chanName t) ∉ L := by
    intro hl
    obtain ⟨_, w', hw', hname⟩ := (h.labels _).mp hl
    exact hnew w' hw' hname
  have hk : Link.write v (w.chanName t) ∉ E := fun hk => hl ((h.links _).mp hk)
  have hplace : (L ++ [Copied.chan v (w.chanName t)]).idxOf (Copied.chan v (w.chanName t)) = s.gout.vertices.length :=
    (h.described (fun _ => .actor 0) fun _ => []).vertices.place_concat hl
  have hedge : (E ++ [Link.write v (w.chanName t)]).idxOf (Link.write v (w.chanName t)) = s.gout.edges.length :=
    (h.described (fun _ => .actor 0) fun _ => []).edges.place_concat hk
  refine ⟨⟨(s.gout.addVertex w.viChan).addEdge (L.idxOf (.actor v)) s.gout.vertices.length w.eiEdge,
    insertVertex s.vertexMap w.vdChan s.gout.vertices.length,
    Function.update s.mergedVertices (w.chanName t)
      (some ⟨s.gout.vertices.length, s.gout.edges.length, (firstWrite w).origChanInfo⟩)⟩, ?_, ⟨?_, ?_, ?_, ?_⟩, ?_⟩
  · unfold addWrite
    simp only [hw, Option.bind_eq_bind, Option.bind_some, h.merged, hnone, Option.map_none]
    rfl
  · intro place reads
    have hvertex : Described (copiedInfo g t (Function.update P v (P v ++ [w]))) (linkInfo t P place reads)
        (L ++ [.chan v (w.chanName t)]) E (s.gout.addVertex w.viChan) := by
      refine (h.described place reads).addVertex hl ?_ ?_
      · intro l hlL
        exact copiedInfo_update fun heq => hl (heq ▸ hlL)
      · rw [copiedInfo_chan, Function.update_self, hfirst]
        rfl
    have hsource : (L ++ [Copied.chan v (w.chanName t)]).idxOf (Link.write v (w.chanName t)).source =
        L.idxOf (.actor v) := List.idxOf_append_of_mem hactor
    have hlast : Copied.chan v (w.chanName t) ∈ L ++ [.chan v (w.chanName t)] := by simp
    rw [← hsource, ← hplace]
    refine hvertex.addEdge hk ⟨List.mem_append_left _ hactor, hlast⟩ ?_ ?_
    · intro k hkE
      exact linkInfo_update fun heq => hk (heq ▸ hkE)
    · rw [linkInfo_write, Function.update_self, hfirst]
      rfl
  · intro l
    rw [isWritten_write, List.mem_append, List.mem_singleton, h.labels]
  · intro k
    rw [List.mem_append, List.mem_singleton, h.links]
    cases k with
    | read l u => simp
    | write u name => simp
  · intro u
    dsimp only
    rw [insertVertex_apply, firstPlace_write hv hchan]
    have hfree : s.vertexMap w.vdChan = none ↔ firstPlace t (as ++ [v]) P w.vdChan = none := by
      rw [h.map, Option.map_eq_none_iff]
    simp only [hfree]
    split
    · rw [Option.map_some, hplace]
    · rw [h.map_idxOf]
  · intro name
    dsimp only
    rw [Function.update_self]
    by_cases hname : name = w.chanName t
    · subst hname
      rw [Function.update_self, hfirst, Option.map_some, hplace, hedge]
    · rw [Function.update_of_ne hname, merged_other hname, h.merged]
      cases hm : SNG.merged t (P v) name with
      | none => rfl
      | some m =>
        obtain ⟨hlab, hlink, _⟩ := h.chan (by simp) hm
        rw [Option.map_some, Option.map_some, List.idxOf_append_of_mem hlab, List.idxOf_append_of_mem hlink]

theorem Writing.step_next (h : Writing t g as v P L E s) (hv : v ∉ as) (hw : readWrite g vi e = some w)
    (hchan : w.vdChan ∉ as ++ [v]) {m' : MergedChan} (hold : SNG.merged t (P v) (w.chanName t) = some m)
    (hm : mergeWrite t m w = some m') :
    ∃ s', addWrite t g vi (L.idxOf (.actor v)) s e = some s' ∧
      Writing t g as v (Function.update P v (P v ++ [w])) L E s' := by
  have hnext := (merged_next hold).trans hm
  obtain ⟨hlab, hlink, hvertex, hedge⟩ := h.chan (by simp) hold
  refine ⟨⟨⟨s.gout.vertices.set (L.idxOf (.chan v (w.chanName t))) m'.viMergedChan,
      s.gout.edges.set (E.idxOf (.write v (w.chanName t)))
        ⟨m'.eiMergedEdge, L.idxOf (.actor v), L.idxOf (.chan v (w.chanName t))⟩⟩,
    insertVertex s.vertexMap w.vdChan (L.idxOf (.chan v (w.chanName t))),
    Function.update s.mergedVertices (w.chanName t)
      (some ⟨L.idxOf (.chan v (w.chanName t)), E.idxOf (.write v (w.chanName t)), m'.origChanInfo⟩)⟩,
    ?_, ⟨?_, ?_, ?_, ?_⟩, ?_⟩
  · unfold addWrite
    simp only [hw, Option.bind_eq_bind, Option.bind_some, h.merged, hold, Option.map_some]
    unfold addChan mergeIntoChan
    simp only [hvertex, hedge, Option.bind_eq_bind, Option.bind_some]
    rw [hm]
    rfl
  · intro place reads
    refine (h.described place reads).set (k := .write v (w.chanName t)) ?_ ?_ ?_ ?_
    · intro l _ hne
      exact copiedInfo_update hne
    · intro k _ hne
      exact linkInfo_update hne
    · rw [copiedInfo_chan, Function.update_self, hnext]
      rfl
    · rw [linkInfo_write, Function.update_self, hnext]
      rfl
  · intro l
    rw [isWritten_write, h.labels]
    constructor
    · exact .inl
    · intro hl
      obtain hl | rfl := hl
      · exact hl
      · exact (h.labels _).mp hlab
  · exact h.links
  · intro u
    dsimp only
    rw [insertVertex_apply, firstPlace_write hv hchan]
    have hfree : s.vertexMap w.vdChan = none ↔ firstPlace t (as ++ [v]) P w.vdChan = none := by
      rw [h.map, Option.map_eq_none_iff]
    simp only [hfree]
    split
    · rfl
    · rw [h.map]
  · intro name
    dsimp only
    rw [Function.update_self]
    by_cases hname : name = w.chanName t
    · subst hname
      rw [Function.update_self, hnext, Option.map_some]
    · rw [Function.update_of_ne hname, merged_other hname, h.merged]

theorem Writing.step (h : Writing t g as v P L E s) (hv : v ∉ as) (hw : readWrite g vi e = some w)
    (hchan : w.vdChan ∉ as ++ [v]) (hm : SNG.merged t (P v ++ [w]) (w.chanName t) = some m) :
    ∃ s' L' E', addWrite t g vi (L.idxOf (.actor v)) s e = some s' ∧
      Writing t g as v (Function.update P v (P v ++ [w])) L' E' s' ∧ L'.idxOf (.actor v) = L.idxOf (.actor v) := by
  have hactor : Copied.actor v ∈ L := (h.labels _).mpr (by simp)
  cases hold : SNG.merged t (P v) (w.chanName t) with
  | none =>
    obtain ⟨s', hs', hwriting⟩ := h.step_first hv hw hchan (h.merged_none (by simp) hold)
    exact ⟨s', _, _, hs', hwriting, List.idxOf_append_of_mem hactor⟩
  | some m₀ =>
    rw [merged_next hold] at hm
    obtain ⟨s', hs', hwriting⟩ := h.step_next hv hw hchan hold hm
    exact ⟨s', L, E, hs', hwriting, rfl⟩

theorem addWrites_some {es : List Edge} {s' : WriteState} (h : Writing t g as v P L E s) (hv : v ∉ as)
    (hes : ∀ e ∈ es, ∃ w, readWrite g vi e = some w ∧ w.vdChan ∉ as ++ [v])
    (hrun : es.foldlM (addWrite t g vi (L.idxOf (.actor v))) s = some s') :
    ∃ L' E', Writing t g as v (Function.update P v (P v ++ es.filterMap (readWrite g vi))) L' E' s' := by
  induction es generalizing P L E s with
  | nil =>
    cases hrun
    refine ⟨L, E, ?_⟩
    rwa [List.filterMap_nil, List.append_nil, Function.update_eq_self]
  | cons e es ih =>
    obtain ⟨w, hw, hchan⟩ := hes e List.mem_cons_self
    rw [List.foldlM_cons] at hrun
    obtain ⟨s₁, hs₁, hrun⟩ := Option.bind_eq_some_iff.mp hrun
    cases hm : SNG.merged t (P v ++ [w]) (w.chanName t) with
    | none =>
      rw [h.step_none hw hm] at hs₁
      cases hs₁
    | some m =>
      obtain ⟨s₁', L₁, E₁, hs₁', hwriting, hidx⟩ := h.step hv hw hchan hm
      obtain rfl := Option.some.inj (hs₁'.symm.trans hs₁)
      rw [← hidx] at hrun
      obtain ⟨L', E', hdone⟩ := ih hwriting (fun e he => hes e (List.mem_cons_of_mem _ he)) hrun
      refine ⟨L', E', ?_⟩
      rw [Function.update_idem, Function.update_self, List.append_assoc] at hdone
      rwa [List.filterMap_cons_some hw]

/-- Each write goes to a channel that can be merged. -/
def Merges (t : Merging) (ws : List Write) : Prop := ∀ w ∈ ws, (SNG.merged t ws (w.chanName t)).isSome

theorem addWrites_of_merges {es : List Edge} (h : Writing t g as v P L E s) (hv : v ∉ as)
    (hes : ∀ e ∈ es, ∃ w, readWrite g vi e = some w ∧ w.vdChan ∉ as ++ [v])
    (hmerges : Merges t (P v ++ es.filterMap (readWrite g vi))) :
    (es.foldlM (addWrite t g vi (L.idxOf (.actor v))) s).isSome := by
  induction es generalizing P L E s with
  | nil => rfl
  | cons e es ih =>
    obtain ⟨w, hw, hchan⟩ := hes e List.mem_cons_self
    rw [List.filterMap_cons_some hw, ← List.singleton_append, ← List.append_assoc] at hmerges
    have hsome : (SNG.merged t (P v ++ [w]) (w.chanName t)).isSome := by
      have hall := hmerges w (by simp)
      unfold SNG.merged at hall ⊢
      rw [Grouping.group_append] at hall
      exact Grouping.fold_prefix (Grouping.group_ne_nil (f := (Write.chanName · t)) (by simp)) hall
    obtain ⟨m, hm⟩ := Option.isSome_iff_exists.mp hsome
    obtain ⟨s₁, L₁, E₁, hs₁, hwriting, hidx⟩ := h.step hv hw hchan hm
    rw [List.foldlM_cons, hs₁, Option.bind_eq_bind, Option.bind_some, ← hidx]
    refine ih hwriting (fun e he => hes e (List.mem_cons_of_mem _ he)) ?_
    rwa [Function.update_self]

end

/-! ## All actors -/

namespace Graph

variable {g : Graph} {v : Nat} {e : Edge}

def IsChannel (g : Graph) (v : Nat) : Prop := ∃ vi, g.vertices[v]? = some vi ∧ vi.type.chan?.isSome

/-- Each edge connects an actor and a channel. -/
def Bipartite (g : Graph) : Prop :=
  ∀ e ∈ g.edges, (g.IsActor e.source ∧ g.IsChannel e.target) ∨ (g.IsChannel e.source ∧ g.IsActor e.target)

def actors (g : Graph) : List Nat := (List.range g.vertices.length).filter fun v => g.IsActor v

def writes (g : Graph) (v : Nat) : List Write :=
  match g.vertices[v]? with
  | some vi => (g.outEdges v).filterMap (readWrite g vi)
  | none => []

theorem mem_actors : v ∈ g.actors ↔ g.IsActor v := by
  unfold actors
  rw [List.mem_filter, List.mem_range, decide_eq_true_eq]
  exact ⟨fun h => h.2, fun h => ⟨h.lt, h⟩⟩

theorem IsActor.info (h : g.IsActor v) : ∃ name repCount, g.vertices[v]? = some ⟨name, .actor repCount⟩ := by
  obtain ⟨r, hr⟩ := Option.isSome_iff_exists.mp h
  unfold repCount? at hr
  split at hr
  · rename_i name repCount hget
    exact ⟨name, repCount, hget⟩
  · cases hr

theorem isActor_of_get {name : String} {repCount : Nat} (h : g.vertices[v]? = some ⟨name, .actor repCount⟩) :
    g.IsActor v := by
  unfold IsActor repCount?
  rw [h]
  rfl

theorem IsChannel.not_isActor (h : g.IsChannel v) : ¬ g.IsActor v := by
  intro hact
  obtain ⟨vi, hvi, hchan⟩ := h
  obtain ⟨name, r, hget⟩ := hact.info
  rw [hget] at hvi
  cases hvi
  cases hchan

theorem Bipartite.outEdge (h : g.Bipartite) (hv : g.IsActor v) (he : e ∈ g.outEdges v) : g.IsChannel e.target := by
  obtain ⟨hmem, rfl⟩ := mem_outEdges.mp he
  obtain ⟨_, hchan⟩ | ⟨hchan, _⟩ := h e hmem
  · exact hchan
  · exact absurd hv hchan.not_isActor

theorem Bipartite.inEdge (h : g.Bipartite) (hv : g.IsActor v) (he : e ∈ g.inEdges v) : g.IsChannel e.source := by
  obtain ⟨hmem, rfl⟩ := mem_inEdges.mp he
  obtain ⟨_, hchan⟩ | ⟨hchan, _⟩ := h e hmem
  · exact absurd hv hchan.not_isActor
  · exact hchan

end Graph

section
variable {t : Merging} {g : Graph} {as : List Nat} {v : Nat} {P : Nat → List Write} {L : List Copied}
  {E : List Link} {w : Write} {e : Edge} {vi : VertexInfo} {gout : Graph} {vertexMap : Nat → Option Nat}

theorem readWrite_some (h : readWrite g vi e = some w) :
    w.vdChan = e.target ∧ w.eiEdge = e.toEdgeInfo ∧ g.vertices[e.target]? = some w.viChan ∧
      ∃ kind, w.viChan.type.chan? = some (kind, w.orig) ∧
        w.chanNameSameContent = kind ++ vi.name ++ "." ++ e.name ∧ w.chanNameSameProducer = kind ++ vi.name ++ ".out" := by
  unfold readWrite at h
  obtain ⟨viChan, hvi, h⟩ := Option.bind_eq_some_iff.mp h
  obtain ⟨⟨kind, orig⟩, hchan, h⟩ := Option.bind_eq_some_iff.mp h
  cases h
  exact ⟨rfl, rfl, hvi, kind, hchan, rfl, rfl⟩

theorem readWrite_isChannel (h : readWrite g vi e = some w) : g.IsChannel w.vdChan := by
  obtain ⟨htarget, _, hget, kind, hchan, _⟩ := readWrite_some h
  exact ⟨w.viChan, htarget ▸ hget, by rw [hchan]; rfl⟩

theorem readWrite_of_isChannel (h : g.IsChannel e.target) (vi : VertexInfo) : ∃ w, readWrite g vi e = some w := by
  obtain ⟨viChan, hget, hchan⟩ := h
  obtain ⟨⟨kind, orig⟩, hchan⟩ := Option.isSome_iff_exists.mp hchan
  unfold readWrite
  rw [hget, Option.bind_eq_bind, Option.bind_some, hchan]
  exact ⟨_, rfl⟩

theorem Graph.mem_writes (hget : g.vertices[v]? = some vi) :
    w ∈ g.writes v ↔ ∃ e ∈ g.outEdges v, readWrite g vi e = some w := by
  unfold Graph.writes
  rw [hget]
  exact List.mem_filterMap

theorem Graph.writes_isChannel (hw : w ∈ g.writes v) : g.IsChannel w.vdChan := by
  cases hget : g.vertices[v]? with
  | none =>
    unfold Graph.writes at hw
    rw [hget] at hw
    cases hw
  | some vi =>
    obtain ⟨e, _, he⟩ := (Graph.mem_writes hget).mp hw
    exact readWrite_isChannel he

theorem firstPlace_isActor (hv : g.IsActor v) (hnew : v ∉ as) (hP : ∀ a ∈ as, P a = g.writes a) :
    firstPlace t as P v = none := by
  unfold firstPlace
  rw [if_neg hnew, List.findSome?_eq_none_iff]
  intro a ha
  rw [Option.map_eq_none_iff, List.find?_eq_none]
  intro w hw
  rw [decide_eq_true_eq]
  intro heq
  rw [hP a ha] at hw
  exact (heq ▸ Graph.writes_isChannel hw).not_isActor hv

theorem Written.start (h : Written t g as P L E gout vertexMap) (hnew : firstPlace t as P v = none) (hP : P v = [])
    (hget : g.vertices[v]? = some vi) :
    Writing t g as v P (L ++ [.actor v]) E
      ⟨gout.addVertex vi, insertVertex vertexMap v gout.vertices.length, fun _ => none⟩ ∧
    (L ++ [Copied.actor v]).idxOf (.actor v) = gout.vertices.length := by
  have hv : v ∉ as := by
    intro hv
    unfold firstPlace at hnew
    rw [if_pos hv] at hnew
    cases hnew
  have hl : Copied.actor v ∉ L := fun hl => hv ((h.labels _).mp hl)
  have hplace : (L ++ [Copied.actor v]).idxOf (.actor v) = gout.vertices.length :=
    (h.described (fun _ => .actor 0) fun _ => []).vertices.place_concat hl
  have hnone : ∀ name, SNG.merged t (P v) name = none := fun name => SNG.merged_none (by simp [hP])
  refine ⟨⟨⟨?_, ?_, ?_, ?_⟩, ?_⟩, hplace⟩
  · intro place reads
    exact (h.described place reads).addVertex hl (fun _ _ => rfl) hget
  · intro l
    rw [List.mem_append, List.mem_singleton, h.labels]
    cases l with
    | actor u => simp
    | channel c => simp
    | chan u name =>
      by_cases hu : u = v
      · subst hu
        simp [hP]
      · simp [hu]
  · intro k
    rw [h.links]
    cases k with
    | read l u => rfl
    | write u name => simp
  · intro u
    dsimp only
    have hfree : vertexMap v = none := by
      rw [h.map, hnew]
      rfl
    rw [insertVertex_apply, firstPlace_actor hP hnew]
    by_cases hu : u = v
    · rw [if_pos ⟨hu, hfree⟩, if_pos hu, Option.map_some, hplace]
    · rw [if_neg (fun h => hu h.1), if_neg hu, h.map]
      cases hplaced : firstPlace t as P u with
      | none => rfl
      | some l =>
        rw [Option.map_some, Option.map_some,
          List.idxOf_append_of_mem ((h.labels l).mpr (firstPlace_isWritten hplaced))]
  · intro name
    rw [hnone]
    rfl

theorem addActor_spec (h : Written t g as g.writes L E gout vertexMap) (hbip : g.Bipartite) (has : ∀ a ∈ as, g.IsActor a)
    (hv : g.IsActor v) (hnew : v ∉ as) :
    (∀ s, addActor t g ⟨gout, vertexMap⟩ v = some s →
      ∃ L' E', Written t g (as ++ [v]) g.writes L' E' s.gout s.vertexMap) ∧
    (Merges t (g.writes v) → (addActor t g ⟨gout, vertexMap⟩ v).isSome) := by
  obtain ⟨name, repCount, hget⟩ := hv.info
  have hempty : Written t g as (Function.update g.writes v []) L E gout vertexMap := by
    refine h.congr ?_
    intro a ha
    rw [Function.update_of_ne]
    intro heq
    exact hnew (heq ▸ ha)
  have hplace : firstPlace t as (Function.update g.writes v []) v = none := by
    refine firstPlace_isActor hv hnew ?_
    intro a ha
    rw [Function.update_of_ne]
    intro heq
    exact hnew (heq ▸ ha)
  obtain ⟨hstart, hidx⟩ := hempty.start hplace (Function.update_self ..) hget
  have hes : ∀ e ∈ g.outEdges v, ∃ w, readWrite g ⟨name, .actor repCount⟩ e = some w ∧ w.vdChan ∉ as ++ [v] := by
    intro e he
    obtain ⟨w, hw⟩ := readWrite_of_isChannel (hbip.outEdge hv he) ⟨name, .actor repCount⟩
    refine ⟨w, hw, ?_⟩
    intro hmem
    refine (readWrite_isChannel hw).not_isActor ?_
    rw [List.mem_append, List.mem_singleton] at hmem
    exact hmem.elim (has _) fun heq => heq ▸ hv
  have hwrites : g.writes v = (g.outEdges v).filterMap (readWrite g ⟨name, .actor repCount⟩) := by
    unfold Graph.writes
    rw [hget]
  unfold addActor
  rw [hget]
  refine ⟨?_, ?_⟩
  · intro s hs
    obtain ⟨s', hrun, hs⟩ := Option.bind_eq_some_iff.mp hs
    cases hs
    dsimp only at hrun
    rw [← hidx] at hrun
    obtain ⟨L', E', hdone⟩ := addWrites_some hstart hnew hes (by rw [hidx] at hrun ⊢; exact hrun)
    refine ⟨L', E', hdone.toWritten.congr ?_⟩
    intro a _
    rw [Function.update_idem, Function.update_self, List.nil_append, ← hwrites, Function.update_eq_self]
  · intro hmerges
    have hsome := addWrites_of_merges hstart hnew hes (by
      rw [Function.update_self, List.nil_append, ← hwrites]
      exact hmerges)
    rw [hidx] at hsome
    obtain ⟨s', hs'⟩ := Option.isSome_iff_exists.mp hsome
    dsimp only
    rw [hs']
    rfl

theorem addActor_other (hv : ¬ g.IsActor v) (s : Copying) : addActor t g s v = some s := by
  unfold addActor
  split
  · rename_i name repCount hget
    exact absurd (Graph.isActor_of_get hget) hv
  · rfl

theorem addActors_spec {vs : List Nat} (hbip : g.Bipartite) (h : Written t g as g.writes L E gout vertexMap)
    (has : ∀ a ∈ as, g.IsActor a) (hvs : (as ++ vs).Nodup) :
    (∀ s, vs.foldlM (addActor t g) ⟨gout, vertexMap⟩ = some s →
      ∃ L' E', Written t g (as ++ vs.filter fun v => g.IsActor v) g.writes L' E' s.gout s.vertexMap) ∧
    ((∀ v ∈ vs, g.IsActor v → Merges t (g.writes v)) → (vs.foldlM (addActor t g) ⟨gout, vertexMap⟩).isSome) := by
  induction vs generalizing as L E gout vertexMap with
  | nil =>
    refine ⟨?_, fun _ => rfl⟩
    intro s hs
    cases hs
    exact ⟨L, E, by simpa using h⟩
  | cons v vs ih =>
    rw [List.foldlM_cons]
    by_cases hv : g.IsActor v
    · have hnew : v ∉ as := by
        intro hmem
        rw [List.nodup_append] at hvs
        exact hvs.2.2 v hmem v List.mem_cons_self rfl
      have hnext : ∀ a ∈ as ++ [v], g.IsActor a := by
        intro a ha
        rw [List.mem_append, List.mem_singleton] at ha
        exact ha.elim (has a) fun heq => heq ▸ hv
      have hrest : (as ++ [v] ++ vs).Nodup := by simpa using hvs
      obtain ⟨hsome, hmerges⟩ := addActor_spec h hbip has hv hnew
      refine ⟨?_, ?_⟩
      · intro s hs
        obtain ⟨s₁, hs₁, hs⟩ := Option.bind_eq_some_iff.mp hs
        obtain ⟨L₁, E₁, h₁⟩ := hsome s₁ hs₁
        obtain ⟨L', E', hdone⟩ := (ih h₁ hnext hrest).1 s hs
        refine ⟨L', E', ?_⟩
        rw [List.filter_cons_of_pos (by simpa using hv)]
        simpa using hdone
      · intro hall
        obtain ⟨s₁, hs₁⟩ := Option.isSome_iff_exists.mp (hmerges (hall v List.mem_cons_self hv))
        obtain ⟨L₁, E₁, h₁⟩ := hsome s₁ hs₁
        rw [hs₁]
        exact (ih h₁ hnext hrest).2 fun u hu => hall u (List.mem_cons_of_mem _ hu)
    · rw [addActor_other hv, Option.bind_eq_bind, Option.bind_some, List.filter_cons_of_neg (by simpa using hv)]
      have hrest : (as ++ vs).Nodup := by
        rw [List.nodup_append] at hvs ⊢
        exact ⟨hvs.1, (List.nodup_cons.mp hvs.2.1).2, fun a ha b hb => hvs.2.2 a ha b (List.mem_cons_of_mem _ hb)⟩
      obtain ⟨hsome, hmerges⟩ := ih h has hrest
      exact ⟨hsome, fun hall => hmerges fun u hu => hall u (List.mem_cons_of_mem _ hu)⟩

theorem Written.empty : Written t g [] P [] [] .empty fun _ => none := by
  refine ⟨?_, ?_, ?_, fun _ => rfl⟩
  · intro place reads
    exact ⟨.nil, .nil, by simp⟩
  · intro l
    cases l <;> simp
  · intro k
    cases k <;> simp

end

end SysteMoC.SNG
