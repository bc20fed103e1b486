import Mathlib

/-!
# SNG graphs

The graph type of `Graph.hpp`. A vertex is its number and an edge its place in the list
of edges, as with the `vecS` containers of the source. Of the union in `VertexInfo` a
vertex has the member its type selects.
-/

namespace SysteMoC.SNG

/-- `-1` as a `size_t`. -/
def unknown : Nat := 2 ^ 64 - 1

def toInt (n : Nat) : Int := Int.bmod n (2 ^ 32)

inductive VertexType where
  | actor (repCount : Nat)
  | fifo (tokenSize capacity delay : Nat)
  | register (tokenSize : Nat)
deriving DecidableEq, Repr

structure VertexInfo where
  name : String
  type : VertexType
deriving DecidableEq, Repr

structure EdgeInfo where
  name : String
  tokenSize : Nat
  tokens : Nat
deriving DecidableEq, Repr

structure Edge extends EdgeInfo where
  source : Nat
  target : Nat
deriving DecidableEq, Repr

structure Graph where
  vertices : List VertexInfo
  edges : List Edge
deriving DecidableEq, Repr

namespace Graph

def empty : Graph := ⟨[], []⟩

def addVertex (g : Graph) (vi : VertexInfo) : Graph := { g with vertices := g.vertices ++ [vi] }

def addEdge (g : Graph) (source target : Nat) (ei : EdgeInfo) : Graph :=
  { g with edges := g.edges ++ [⟨ei, source, target⟩] }

def outEdges (g : Graph) (v : Nat) : List Edge := g.edges.filter (·.source = v)

def inEdges (g : Graph) (v : Nat) : List Edge := g.edges.filter (·.target = v)

def repCount? (g : Graph) (v : Nat) : Option Nat :=
  match g.vertices[v]? with
  | some ⟨_, .actor repCount⟩ => some repCount
  | _ => none

def IsActor (g : Graph) (v : Nat) : Prop := (g.repCount? v).isSome

instance (g : Graph) (v : Nat) : Decidable (g.IsActor v) := inferInstanceAs (Decidable (_ = true))

def HasEdge (g : Graph) (u v : Nat) : Prop := ∃ e ∈ g.edges, e.source = u ∧ e.target = v

/-- Edges end at vertices. -/
def Closed (g : Graph) : Prop :=
  ∀ e ∈ g.edges, e.source < g.vertices.length ∧ e.target < g.vertices.length

variable {g : Graph} {vi : VertexInfo} {ei : EdgeInfo} {u v c r : Nat}

@[simp] theorem vertices_addVertex : (g.addVertex vi).vertices = g.vertices ++ [vi] := rfl

@[simp] theorem edges_addVertex : (g.addVertex vi).edges = g.edges := rfl

@[simp] theorem vertices_addEdge : (g.addEdge u v ei).vertices = g.vertices := rfl

@[simp] theorem edges_addEdge : (g.addEdge u v ei).edges = g.edges ++ [⟨ei, u, v⟩] := rfl

@[simp] theorem outEdges_addVertex : (g.addVertex vi).outEdges v = g.outEdges v := rfl

@[simp] theorem inEdges_addVertex : (g.addVertex vi).inEdges v = g.inEdges v := rfl

theorem outEdges_addEdge (x : Nat) :
    (g.addEdge u v ei).outEdges x = if u = x then g.outEdges x ++ [⟨ei, u, v⟩] else g.outEdges x := by
  unfold outEdges
  split <;> simp [*]

theorem inEdges_addEdge (x : Nat) :
    (g.addEdge u v ei).inEdges x = if v = x then g.inEdges x ++ [⟨ei, u, v⟩] else g.inEdges x := by
  unfold inEdges
  split <;> simp [*]

@[simp] theorem repCount?_addEdge (x : Nat) : (g.addEdge u v ei).repCount? x = g.repCount? x := rfl

theorem repCount?_lt (h : g.repCount? v = some r) : v < g.vertices.length := by
  unfold repCount? at h
  by_contra hv
  rw [List.getElem?_eq_none (Nat.not_lt.mp hv)] at h
  cases h

theorem repCount?_addVertex (hv : v < g.vertices.length) : (g.addVertex vi).repCount? v = g.repCount? v := by
  unfold repCount?
  rw [vertices_addVertex, List.getElem?_append_left hv]

theorem repCount?_addVertex_of (h : g.repCount? v = some r) : (g.addVertex vi).repCount? v = some r := by
  rw [repCount?_addVertex (repCount?_lt h), h]

theorem IsActor.lt (h : g.IsActor v) : v < g.vertices.length := by
  obtain ⟨r, hr⟩ := Option.isSome_iff_exists.mp h
  exact repCount?_lt hr

theorem IsActor.addVertex (h : g.IsActor v) : (g.addVertex vi).IsActor v := by
  unfold IsActor
  rw [repCount?_addVertex h.lt]
  exact h

theorem IsActor.of_append {g' : Graph} (hvi : ∀ r, vi.type ≠ .actor r)
    (hg : g'.vertices = g.vertices ++ [vi]) (h : g'.IsActor v) : g.IsActor v := by
  obtain ⟨r, hr⟩ := Option.isSome_iff_exists.mp h
  have hlt := repCount?_lt hr
  rw [hg, List.length_append, List.length_singleton] at hlt
  unfold repCount? at hr
  rw [hg] at hr
  by_cases hv : v < g.vertices.length
  · rw [List.getElem?_append_left hv] at hr
    exact Option.isSome_iff_exists.mpr ⟨r, hr⟩
  · obtain rfl : v = g.vertices.length := by omega
    rw [List.getElem?_concat_length] at hr
    obtain ⟨name, type⟩ := vi
    cases type with
    | actor r' => exact absurd rfl (hvi r')
    | fifo => simp at hr
    | register => simp at hr

theorem Closed.addVertex (h : g.Closed) : (g.addVertex vi).Closed := by
  intro e he
  simp only [vertices_addVertex, List.length_append, List.length_singleton]
  exact ⟨Nat.lt_succ_of_lt (h e he).1, Nat.lt_succ_of_lt (h e he).2⟩

theorem Closed.addEdge (h : g.Closed) (hu : u < g.vertices.length) (hv : v < g.vertices.length) :
    (g.addEdge u v ei).Closed := by
  intro e he
  simp only [edges_addEdge, List.mem_append, List.mem_singleton] at he
  obtain he | rfl := he
  · exact h e he
  · exact ⟨hu, hv⟩

section
variable {g' : Graph} {es : List Edge}

theorem inEdges_append (h : g'.edges = g.edges ++ es) (v : Nat) : g'.inEdges v = g.inEdges v ++ es.filter (·.target = v) := by
  unfold inEdges
  rw [h, List.filter_append]

theorem outEdges_append (h : g'.edges = g.edges ++ es) (v : Nat) : g'.outEdges v = g.outEdges v ++ es.filter (·.source = v) := by
  unfold outEdges
  rw [h, List.filter_append]

theorem inEdges_elsewhere (h : g'.edges = g.edges ++ es) (hes : ∀ e ∈ es, e.target ≠ v) : g'.inEdges v = g.inEdges v := by
  have hnil : es.filter (·.target = v) = [] := by simpa only [List.filter_eq_nil_iff, decide_eq_true_eq] using hes
  rw [inEdges_append h, hnil, List.append_nil]

theorem outEdges_elsewhere (h : g'.edges = g.edges ++ es) (hes : ∀ e ∈ es, e.source ≠ v) : g'.outEdges v = g.outEdges v := by
  have hnil : es.filter (·.source = v) = [] := by simpa only [List.filter_eq_nil_iff, decide_eq_true_eq] using hes
  rw [outEdges_append h, hnil, List.append_nil]

end

theorem Closed.outEdges_nil (h : g.Closed) (hv : g.vertices.length ≤ v) : g.outEdges v = [] := by
  unfold outEdges
  simp only [List.filter_eq_nil_iff, decide_eq_true_eq]
  intro e he hsrc
  have := (h e he).1
  omega

theorem Closed.inEdges_nil (h : g.Closed) (hv : g.vertices.length ≤ v) : g.inEdges v = [] := by
  unfold inEdges
  simp only [List.filter_eq_nil_iff, decide_eq_true_eq]
  intro e he htgt
  have := (h e he).2
  omega

theorem mem_outEdges {e : Edge} : e ∈ g.outEdges v ↔ e ∈ g.edges ∧ e.source = v := by
  simp [outEdges]

theorem mem_inEdges {e : Edge} : e ∈ g.inEdges v ↔ e ∈ g.edges ∧ e.target = v := by
  simp [inEdges]

end Graph

end SysteMoC.SNG
