import SysteMoC.SngGraph
import Mathlib.Logic.Function.Basic

/-!
# Transformations of SNG graphs

`transform`: the channels an actor writes are merged in a pass over the out-edges of the
actors, and a second pass over their in-edges connects the readers. The maps that are only
looked up are functions. Arithmetic on `size_t` is modulo `2 ^ 64`. Assertions are on.
-/

namespace SysteMoC.SNG

inductive Transform where
  | fifosNoMerging
  | fifosSameContentMerging
  | fifosSameProducerMerging
  | chansAreDroppedNoMerging
  | chansAreDroppedSameContentMerging
deriving DecidableEq, Repr

/-- The transforms that `transformFifos` accepts. -/
inductive Merging where
  | sameContent
  | sameProducer
deriving DecidableEq, Repr

structure OrigChanInfo where
  tokenSize : Nat
  capacity : Nat
deriving DecidableEq, Repr

structure VertexMergeInfo where
  vd : Nat
  ed : Nat
  origChanInfo : List (String × OrigChanInfo)
deriving DecidableEq, Repr

/-- The prefix of a channel's names, its token size and its capacity. -/
def VertexType.chan? : VertexType → Option (String × OrigChanInfo)
  | .actor _ => none
  | .fifo tokenSize capacity _ => some ("cf:", ⟨tokenSize, capacity⟩)
  | .register tokenSize => some ("reg:", ⟨tokenSize, 1⟩)

structure Write where
  eiEdge : EdgeInfo
  vdChan : Nat
  viChan : VertexInfo
  chanNameSameContent : String
  chanNameSameProducer : String
  orig : OrigChanInfo
deriving DecidableEq, Repr

def Write.chanName (w : Write) : Merging → String
  | .sameContent => w.chanNameSameContent
  | .sameProducer => w.chanNameSameProducer

def readWrite (g : Graph) (viSrcActor : VertexInfo) (e : Edge) : Option Write := do
  let viChan ← g.vertices[e.target]?
  let (kind, orig) ← viChan.type.chan?
  return ⟨e.toEdgeInfo, e.target, viChan, kind ++ viSrcActor.name ++ "." ++ e.name,
    kind ++ viSrcActor.name ++ ".out", orig⟩

/-! ## Merging -/

/-- A channel of the result, its write edge and what it was merged from. -/
structure MergedChan where
  viMergedChan : VertexInfo
  eiMergedEdge : EdgeInfo
  origChanInfo : List (String × OrigChanInfo)
deriving DecidableEq, Repr

def EdgeInfo.merge (eiMerged ei : EdgeInfo) : EdgeInfo :=
  ⟨eiMerged.name, (eiMerged.tokenSize * eiMerged.tokens + ei.tokenSize * ei.tokens) % 2 ^ 64, 1⟩

def firstWrite (w : Write) : MergedChan := ⟨w.viChan, w.eiEdge, [(w.chanNameSameContent, w.orig)]⟩

/-- Known content has its token size, and the larger capacity counts. -/
def mergeContent (m : MergedChan) (w : Write) : Option MergedChan :=
  match m.origChanInfo.lookup w.chanNameSameContent with
  | some orig =>
    if orig.tokenSize = w.orig.tokenSize then
      some { m with origChanInfo := m.origChanInfo.map fun entry =>
        if entry.1 = w.chanNameSameContent then
          (entry.1, ⟨entry.2.tokenSize, max entry.2.capacity w.orig.capacity⟩)
        else entry }
    else none
  | none =>
    some ⟨m.viMergedChan, m.eiMergedEdge.merge w.eiEdge, m.origChanInfo ++ [(w.chanNameSameContent, w.orig)]⟩

def bufferSize (origChanInfo : List (String × OrigChanInfo)) : Nat :=
  (origChanInfo.map fun entry => entry.2.tokenSize * entry.2.capacity).sum % 2 ^ 64

/-- The merged channel after a write of `content`. -/
def mergeType (t : Merging) (origChanInfo : List (String × OrigChanInfo)) (content : String) :
    VertexType → VertexType → Option VertexType
  | .fifo tokenSize _ delay, .fifo _ _ delay' =>
    match t with
    | .sameContent => do
      let orig ← origChanInfo.lookup content
      if origChanInfo.length = 1 then
        some (.fifo tokenSize orig.capacity (if delay = delay' then delay else unknown))
      else none
    | .sameProducer => some (.fifo (bufferSize origChanInfo) 1 unknown)
  | .register tokenSize, .register _ =>
    match t with
    | .sameContent => if origChanInfo.length = 1 then some (.register tokenSize) else none
    | .sameProducer => some (.register (bufferSize origChanInfo))
  | _, _ => none

def mergeWrite (t : Merging) (m : MergedChan) (w : Write) : Option MergedChan := do
  let m ← mergeContent m w
  let type ← mergeType t m.origChanInfo w.chanNameSameContent m.viMergedChan.type w.viChan.type
  return { m with viMergedChan := ⟨w.chanName t, type⟩ }

/-! ## Copying -/

def insertVertex (m : Nat → Option Nat) (k vd : Nat) : Nat → Option Nat :=
  if (m k).isSome then m else Function.update m k (some vd)

structure WriteState where
  gout : Graph
  vertexMap : Nat → Option Nat
  mergedVertices : String → Option VertexMergeInfo

def addNewChan (gout : Graph) (vdSrcActor : Nat) (w : Write) : Graph × VertexMergeInfo :=
  ((gout.addVertex w.viChan).addEdge vdSrcActor gout.vertices.length w.eiEdge,
    ⟨gout.vertices.length, gout.edges.length, (firstWrite w).origChanInfo⟩)

def mergeIntoChan (t : Merging) (gout : Graph) (info : VertexMergeInfo) (w : Write) :
    Option (Graph × VertexMergeInfo) := do
  let viMergedChan ← gout.vertices[info.vd]?
  let edge ← gout.edges[info.ed]?
  let m ← mergeWrite t ⟨viMergedChan, edge.toEdgeInfo, info.origChanInfo⟩ w
  return (⟨gout.vertices.set info.vd m.viMergedChan, gout.edges.set info.ed ⟨m.eiMergedEdge, edge.source, edge.target⟩⟩,
    ⟨info.vd, info.ed, m.origChanInfo⟩)

def addChan (t : Merging) (gout : Graph) (vdSrcActor : Nat) (w : Write) : Option VertexMergeInfo →
    Option (Graph × VertexMergeInfo)
  | none => some (addNewChan gout vdSrcActor w)
  | some info => mergeIntoChan t gout info w

def addWrite (t : Merging) (g : Graph) (viSrcActor : VertexInfo) (vdSrcActor : Nat) (s : WriteState) (e : Edge) :
    Option WriteState := do
  let w ← readWrite g viSrcActor e
  let (gout, info) ← addChan t s.gout vdSrcActor w (s.mergedVertices (w.chanName t))
  return ⟨gout, insertVertex s.vertexMap w.vdChan info.vd,
    Function.update s.mergedVertices (w.chanName t) (some info)⟩

structure Copying where
  gout : Graph
  vertexMap : Nat → Option Nat

def addActor (t : Merging) (g : Graph) (s : Copying) (v : Nat) : Option Copying :=
  match g.vertices[v]? with
  | some ⟨name, .actor repCount⟩ => do
    let vdSrcActor := s.gout.vertices.length
    let s ← (g.outEdges v).foldlM (addWrite t g ⟨name, .actor repCount⟩ vdSrcActor)
      ⟨s.gout.addVertex ⟨name, .actor repCount⟩, insertVertex s.vertexMap v vdSrcActor, fun _ => none⟩
    return ⟨s.gout, s.vertexMap⟩
  | _ => some s

structure ReadState where
  gout : Graph
  vertexMap : Nat → Option Nat
  mergedEdges : Nat → Option Nat

/-- The copy of a channel, made if no actor writes the channel. -/
def readChan (g : Graph) (s : ReadState) (vSource : Nat) : Option (ReadState × Nat) :=
  match s.vertexMap vSource with
  | some vdSrcFifo => some (s, vdSrcFifo)
  | none => do
    let vi ← g.vertices[vSource]?
    return (⟨s.gout.addVertex vi, Function.update s.vertexMap vSource (some s.gout.vertices.length), s.mergedEdges⟩,
      s.gout.vertices.length)

def addRead (g : Graph) (vdTgtActor : Nat) (s : ReadState) (e : Edge) : Option ReadState := do
  let (s, vdSrcFifo) ← readChan g s e.source
  match s.mergedEdges vdSrcFifo with
  | none => some ⟨s.gout.addEdge vdSrcFifo vdTgtActor e.toEdgeInfo, s.vertexMap,
      Function.update s.mergedEdges vdSrcFifo (some s.gout.edges.length)⟩
  | some edRead => do
    let edge ← s.gout.edges[edRead]?
    return { s with gout := ⟨s.gout.vertices,
      s.gout.edges.set edRead ⟨edge.toEdgeInfo.merge e.toEdgeInfo, edge.source, edge.target⟩⟩ }

def addReads (g : Graph) (s : Copying) (v : Nat) : Option Copying :=
  if g.IsActor v then do
    let vdTgtActor ← s.vertexMap v
    let s ← (g.inEdges v).foldlM (addRead g vdTgtActor) ⟨s.gout, s.vertexMap, fun _ => none⟩
    return ⟨s.gout, s.vertexMap⟩
  else some s

def transformFifos (g : Graph) (t : Merging) : Option Graph := do
  let s ← (List.range g.vertices.length).foldlM (addActor t g) ⟨.empty, fun _ => none⟩
  let s ← (List.range g.vertices.length).foldlM (addReads g) s
  return s.gout

def transform (g : Graph) : Transform → Option Graph
  | .fifosSameContentMerging => transformFifos g .sameContent
  | .fifosSameProducerMerging => transformFifos g .sameProducer
  | .chansAreDroppedNoMerging => some .empty
  | .chansAreDroppedSameContentMerging => some .empty
  | .fifosNoMerging => some g

end SysteMoC.SNG
