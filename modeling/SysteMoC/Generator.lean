import SysteMoC.SngGraph
import SysteMoC.Drawing
import SysteMoC.Queue
import Mathlib.Data.List.Sort

/-!
# Generating SDF graphs

`sng-generate-sdf` up to the point where the graph has its final topology: clusters,
channels between clusters, joined components, source actor. The random generators of the
options may give any numbers, so only their draws appear. A draw of a `double` stands
for its integer part; what the code does with it does not depend on the rest. A failed
assertion, a division by zero and an empty range to draw from end the run.
-/

namespace SysteMoC.SNG

open Drawing

/-- The graph and the counters of the names. -/
structure Generator where
  g : Graph
  fifoCount : Nat
  inputCount : Nat
  outputCount : Nat
deriving DecidableEq, Repr

structure ClusterOptions where
  type : String
  weight : Nat
  count : Nat
deriving DecidableEq, Repr

structure ClusterInformation where
  vdInputs : List Nat
  vdOutputs : List Nat
  vdActors : List Nat
deriving DecidableEq, Repr

/-- The command line. `clusters` are the `new-cluster` blocks with their weights. -/
structure Options where
  pre : Option String
  clusters : List (String × Nat)
  createDAG : Bool
  selfEdges : Bool
  randomClusterSelection : Bool
  sourceActor : Bool
  inputCommunication : Bool
  outputCommunication : Bool
deriving DecidableEq, Repr

def Options.prefixOf (o : Options) : String := (o.pre.map (· ++ ".")).getD ""

def Options.allowSelfEdges (o : Options) : Bool := o.selfEdges && !o.createDAG

def div? (a b : Nat) : Option Nat := if b = 0 then none else some (a / b)

namespace Generator

def start : Generator := ⟨.empty, 0, 0, 0⟩

/-! ## Vertices and channels -/

def addActor (st : Generator) (name : String) (repCount : Nat) : Generator :=
  { st with g := st.g.addVertex ⟨name, .actor repCount⟩ }

def addConsumer (vdChannel : Nat) (g : Graph) (snk : Nat × Nat) : Graph :=
  g.addEdge vdChannel snk.1 ⟨"i" ++ toString ((g.inEdges snk.1).length + 1), unknown, snk.2⟩

def addChannel (st : Generator) (pre : String) (vdSrcActor : Nat) (vdSnkActors : List Nat) :
    Option (Nat × Generator) := do
  let vdChannel := st.g.vertices.length
  let repSrc ← st.g.repCount? vdSrcActor
  let repSnks ← vdSnkActors.mapM st.g.repCount?
  let repLcm := repSnks.foldl Nat.lcm repSrc
  let prod ← div? repLcm repSrc
  let cons ← repSnks.mapM (div? repLcm)
  let maxCons := cons.foldl max 0
  -- a lower bound for the buffer size
  let vi := ⟨pre ++ "c" ++ toString (st.fifoCount + 1), .fifo unknown (prod + maxCons - 1) 0⟩
  let g := (st.g.addVertex vi).addEdge vdSrcActor vdChannel
    ⟨"o" ++ toString ((st.g.outEdges vdSrcActor).length + 1), unknown, prod⟩
  let g := (vdSnkActors.zip cons).foldl (addConsumer vdChannel) g
  return (vdChannel, { st with g := g, fifoCount := st.fifoCount + 1 })

def addInput (st : Generator) (pre : String) (vdSnkActor : Nat) : Generator :=
  let vdInput := st.g.vertices.length
  let g := st.g.addVertex ⟨pre ++ "regIn" ++ toString (st.inputCount + 1), .register unknown⟩
  { st with
    g := g.addEdge vdInput vdSnkActor ⟨"in", unknown, 1⟩
    inputCount := st.inputCount + 1 }

def addOutput (st : Generator) (pre : String) (vdSrcActor : Nat) : Generator :=
  let vdOutput := st.g.vertices.length
  let g := st.g.addVertex ⟨pre ++ "regOut" ++ toString (st.outputCount + 1), .register unknown⟩
  { st with
    g := g.addEdge vdSrcActor vdOutput ⟨"out", unknown, 1⟩
    outputCount := st.outputCount + 1 }

/-! ## Clusters -/

def push (d : Nat) (q : List Nat) : List Nat := q.orderedInsert (· ≥ ·) d

def pop (default : Nat) : List Nat → Nat × List Nat
  | [] => (default, [])
  | d :: q => (d, q)

/-- The `do` loop that collects the sinks of one channel. -/
def drawSinks : Nat → List Nat → List Nat → Int → Int → Drawing (List Nat × List Nat × Int × Int)
  | 0, _, _, _, _ => ofOption none
  | fuel + 1, vdSnks, vdMulticast, multicastDegree, outDegree => do
    let snkIndex ← below vdSnks.length
    let vdSnk ← ofOption vdSnks[snkIndex]?
    let vdMulticast := vdMulticast ++ [vdSnk]
    let vdSnks := vdSnks.eraseIdx snkIndex
    let multicastDegree := multicastDegree - 1
    let outDegree := outDegree - 1
    if vdSnks ≠ [] ∧ 0 < multicastDegree ∧ 0 < outDegree then
      drawSinks fuel vdSnks vdMulticast multicastDegree outDegree
    else
      return (vdMulticast, vdSnks, multicastDegree, outDegree)

def addChannels (pre : String) (vdSrc : Nat) : Nat → List Nat → Int → Int → Generator → Drawing Generator
  | 0, _, _, _, st => return st
  | fuel + 1, vdSnks, multicastDegree, outDegree, st =>
    if vdSnks ≠ [] ∧ 0 < outDegree then do
      let (vdMulticast, vdSnks, multicastDegree, outDegree) ←
        drawSinks vdSnks.length vdSnks [] multicastDegree outDegree
      let (_, st) ← ofOption (st.addChannel pre vdSrc vdMulticast)
      addChannels pre vdSrc fuel vdSnks multicastDegree outDegree st
    else return st

/-- A cluster under construction, with the degrees drawn so far. -/
structure Growing where
  st : Generator
  ci : ClusterInformation
  outDegrees : List Nat
  multicastDegrees : List Nat

def addClusterActor (name : String) (clusterInputs firstOutput : Nat) (s : Growing) (j : Nat) :
    Drawing Growing := do
  let repCount ← draw
  let vd := s.st.g.vertices.length
  let st := s.st.addActor (name ++ ".a" ++ toString (j + 1)) repCount
  let ci := { s.ci with
    vdActors := s.ci.vdActors ++ [vd]
    vdInputs := if j < clusterInputs then s.ci.vdInputs ++ [vd] else s.ci.vdInputs }
  if firstOutput ≤ j then
    return { s with st := st, ci := { ci with vdOutputs := ci.vdOutputs ++ [vd] } }
  let outDegree ← draw
  let multicastDegree ← draw
  return { st := st, ci := ci
           outDegrees := if 0 < outDegree then push outDegree s.outDegrees else s.outDegrees
           multicastDegrees :=
             if 1 < multicastDegree then push multicastDegree s.multicastDegrees
             else s.multicastDegrees }

def connectClusterActor (pre : String) (createDAG allowSelfEdges : Bool) (clusterInputs : Nat) (s : Growing)
    (j : Nat) : Drawing Growing := do
  let vdSrc ← ofOption s.ci.vdActors[j]?
  let (outDegree, outDegrees) := pop 0 s.outDegrees
  let (multicastDegree, multicastDegrees) := pop 1 s.multicastDegrees
  let vdSnks :=
    if createDAG then s.ci.vdActors.drop (max (j + 1) clusterInputs)
    else s.ci.vdActors.filter fun vdSnk => allowSelfEdges ∨ vdSrc ≠ vdSnk
  let st ← addChannels pre vdSrc vdSnks.length vdSnks (toInt multicastDegree) (toInt outDegree) s.st
  return { s with st := st, outDegrees := outDegrees, multicastDegrees := multicastDegrees }

def generateCluster (o : Options) (type : String) (count maxActors : Nat) (st : Generator) :
    Drawing (ClusterInformation × Generator) := do
  let clusterSize := min (← draw) maxActors
  let clusterInputs := min (← draw) (clusterSize * 3 / 2)
  let clusterOutputs := min (← draw) (clusterSize * 3 / 2)
  check (1 ≤ clusterSize)
  let name := o.prefixOf ++ type ++ toString count
  let s ← (List.range clusterSize).foldlM
    (addClusterActor name clusterInputs (sizeSub clusterSize clusterOutputs)) ⟨st, ⟨[], [], []⟩, [], []⟩
  let s ← (List.range clusterSize).foldlM
    (connectClusterActor o.prefixOf o.createDAG o.allowSelfEdges clusterInputs) s
  return (s.ci, s.st)

/-! ## Choice of the clusters -/

def insertOptions (key : Nat) (options : ClusterOptions) :
    List (Nat × ClusterOptions) → List (Nat × ClusterOptions)
  | [] => [(key, options)]
  | (k, p) :: m =>
    if key < k then (key, options) :: (k, p) :: m
    else if key = k then (key, options) :: m
    else (k, p) :: insertOptions key options m

def clusterOptionsMap (clusters : List (String × Nat)) : List (Nat × ClusterOptions) × Nat :=
  clusters.foldl (fun (m, clusterEndWeight) (type, weight) =>
    let clusterEndWeight := clusterEndWeight + weight
    (insertOptions (sizeSub clusterEndWeight 1) ⟨type, weight, 0⟩ m, clusterEndWeight)) ([], 0)

/-- A cluster takes at least one actor, so `fuel` need not be more than `actorCount`. -/
def selectRandomly (o : Options) (endWeight : Nat) : Nat → Nat → List (Nat × ClusterOptions) →
    List ClusterInformation → Generator → Drawing (List ClusterInformation × Generator)
  | 0, _, _, clusterMap, st => return (clusterMap, st)
  | fuel + 1, actorCount, m, clusterMap, st =>
    if 0 < actorCount then do
      let d ← below endWeight
      let i ← ofOption (m.findIdx? fun e => d ≤ e.1)
      let (k, options) ← ofOption m[i]?
      let options := { options with count := options.count + 1 }
      let (ci, st) ← generateCluster o options.type options.count actorCount st
      selectRandomly o endWeight fuel (actorCount - ci.vdActors.length) (m.set i (k, options))
        (clusterMap ++ [ci]) st
    else return (clusterMap, st)

def selectType (o : Options) (type : String) : Nat → Nat → Nat → List ClusterInformation → Generator →
    Drawing (Nat × List ClusterInformation × Generator)
  | 0, _, actorCount, clusterMap, st => return (actorCount, clusterMap, st)
  | left + 1, count, actorCount, clusterMap, st =>
    if 0 < actorCount then do
      let (ci, st) ← generateCluster o type (count + 1) actorCount st
      selectType o type left (count + 1) (actorCount - ci.vdActors.length) (clusterMap ++ [ci]) st
    else return (actorCount, clusterMap, st)

def selectInOrder (o : Options) (actorCount : Nat) (m : List (Nat × ClusterOptions)) (st : Generator) :
    Drawing (List ClusterInformation × Generator) := do
  let (_, clusterMap, st) ← m.foldlM (fun (actorCount, clusterMap, st) (_, options) =>
    selectType o options.type options.weight options.count actorCount clusterMap st) (actorCount, [], st)
  return (clusterMap, st)

def generateClusters (o : Options) : Drawing (List ClusterInformation × Generator) := do
  check (o.clusters ≠ [])
  let (m, clusterEndWeight) := clusterOptionsMap o.clusters
  let actorCount ← draw
  if o.randomClusterSelection then selectRandomly o clusterEndWeight actorCount actorCount m [] start
  else selectInOrder o actorCount m start

/-! ## Channels between clusters -/

def drawCandidates (outDegree : Nat) (vdSnks : List Nat) (ci : ClusterInformation) : Drawing (List Nat) :=
  if outDegree ≤ vdSnks.length then return vdSnks
  else
    let vdCandidates := ci.vdActors.filter (· ∉ vdSnks)
    if vdCandidates = [] then return vdSnks
    else do
      let k ← below vdCandidates.length
      let vd ← ofOption vdCandidates[k]?
      return vdSnks ++ [vd]

def fillSinks (outDegree : Nat) (others : List ClusterInformation) : Nat → List Nat → Drawing (List Nat)
  | 0, vdSnks => return vdSnks
  | fuel + 1, vdSnks =>
    if vdSnks.length < outDegree then do
      let vdSnks' ← others.foldlM (drawCandidates outDegree) vdSnks
      if vdSnks'.length = vdSnks.length then return vdSnks'
      else fillSinks outDegree others fuel vdSnks'
    else return vdSnks

def drawOutputDegrees (s : List Nat × List Nat) (_ : Nat) : Drawing (List Nat × List Nat) := do
  let outDegree ← draw
  let multicastDegree ← draw
  return (if 0 < outDegree then push outDegree s.1 else s.1,
    if 1 < multicastDegree then push multicastDegree s.2 else s.2)

def connectOutput (pre : String) (others : List ClusterInformation)
    (s : Generator × List Nat × List Nat) (vdSrc : Nat) : Drawing (Generator × List Nat × List Nat) := do
  let (outDegree, outDegrees) := pop 0 s.2.1
  let (multicastDegree, multicastDegrees) := pop 1 s.2.2
  let vdSnks ← fillSinks outDegree others outDegree (others.flatMap (·.vdInputs))
  let st ← addChannels pre vdSrc vdSnks.length vdSnks (toInt multicastDegree) outDegree s.1
  return (st, outDegrees, multicastDegrees)

def connectCluster (o : Options) (clusterMap : List ClusterInformation) (st : Generator)
    (srcCluster : Nat) : Drawing Generator := do
  let ci ← ofOption clusterMap[srcCluster]?
  let others :=
    if o.createDAG then clusterMap.drop (srcCluster + 1) else clusterMap.eraseIdx srcCluster
  let (outDegrees, multicastDegrees) ← ci.vdOutputs.foldlM drawOutputDegrees ([], [])
  let (st, _) ← ci.vdOutputs.foldlM (connectOutput o.prefixOf others) (st, outDegrees, multicastDegrees)
  return st

def connectClusters (o : Options) (clusterMap : List ClusterInformation) (st : Generator) : Drawing Generator :=
  if 1 < clusterMap.length then (List.range clusterMap.length).foldlM (connectCluster o clusterMap) st
  else return st

/-- Up to the graph whose components are joined next. -/
def clusterGraph (o : Options) : Drawing Generator := do
  let (clusterMap, st) ← generateClusters o
  connectClusters o clusterMap st

/-! ## Joining the components -/

def componentActors (g : Graph) (compNum : Nat) (compMap : Nat → Nat) : List (List Nat) :=
  (List.range compNum).map fun k =>
    (List.range g.vertices.length).filter fun v => g.IsActor v ∧ compMap v = k

def joinComponents (pre : String) : Nat → List (List Nat) → Generator → Drawing Generator
  | 0, _, st => return st
  | fuel + 1, components, st =>
    if 1 < components.length then do
      let srcComponent ← below components.length
      let snkComponent ← belowOther components.length srcComponent
      let srcs ← ofOption components[srcComponent]?
      let snks ← ofOption components[snkComponent]?
      let vdSrc ← ofOption srcs[← below srcs.length]?
      let vdSnk ← ofOption snks[← below snks.length]?
      let (_, st) ← ofOption (st.addChannel pre vdSrc [vdSnk])
      joinComponents pre fuel ((components.set srcComponent (srcs ++ snks)).eraseIdx snkComponent) st
    else return st

/-- `connected_components` gives the number of components and the component of each vertex. -/
def connectComponents (connected_components : Graph → Nat × (Nat → Nat)) (pre : String) (st : Generator) :
    Drawing Generator :=
  let (compNum, compMap) := connected_components st.g
  if 1 < compNum then
    joinComponents pre compNum (componentActors st.g compNum compMap) st
  else return st

/-! ## Source actor, inputs and outputs -/

/-- What the loop over the actors keeps. -/
structure Sourced where
  st : Generator
  actorMap : List Nat
  inputsConnected : Bool
  outputsConnected : Bool

def addSource (o : Options) (vdSource v : Nat) (st : Generator) : Option Generator :=
  if o.sourceActor then (st.addChannel o.prefixOf vdSource [v]).map (·.2) else some st

def addInputTo (o : Options) (v : Nat) (st : Generator) : Generator :=
  if o.inputCommunication then st.addInput o.prefixOf v else st

def addOutputTo (o : Options) (v : Nat) (st : Generator) : Generator :=
  if o.outputCommunication then st.addOutput o.prefixOf v else st

def sourceActor (o : Options) (vdSource : Nat) (s : Sourced) (v : Nat) : Drawing Sourced :=
  if v = vdSource ∨ ¬ s.st.g.IsActor v then return s
  else do
    let isSourceActor : Bool := s.st.g.inEdges v = []
    let isSinkActor : Bool := s.st.g.outEdges v = []
    let st ← ofOption (if isSourceActor then addSource o vdSource v s.st else some s.st)
    let st := if isSourceActor then addInputTo o v st else st
    let st := if isSinkActor then addOutputTo o v st else st
    return { st := st, actorMap := s.actorMap ++ [v]
             inputsConnected := s.inputsConnected || isSourceActor
             outputsConnected := s.outputsConnected || isSinkActor }

/-- A source or an input for some actor, if there was none. -/
def connectInputs (o : Options) (vdSource : Nat) (s : Sourced) : Drawing Generator :=
  if s.inputsConnected = false ∧ (o.sourceActor ∨ o.inputCommunication) then do
    let v ← ofOption s.actorMap[← below s.actorMap.length]?
    let st ← ofOption (addSource o vdSource v s.st)
    return addInputTo o v st
  else return s.st

def connectOutputs (o : Options) (s : Sourced) (st : Generator) : Drawing Generator :=
  if s.outputsConnected = false ∧ o.outputCommunication then do
    let v ← ofOption s.actorMap[← below s.actorMap.length]?
    return addOutputTo o v st
  else return st

/-- Without a source actor `vdSource` is uninitialised. -/
def sourceVertex (o : Options) (st : Generator) : Drawing Nat :=
  if o.sourceActor then return st.g.vertices.length else draw

def addSourcesAt (o : Options) (vdSource : Nat) (st : Generator) : Drawing Generator := do
  let st := if o.sourceActor then st.addActor (o.prefixOf ++ "source") 1 else st
  let s ← (List.range st.g.vertices.length).foldlM (sourceActor o vdSource) ⟨st, [], false, false⟩
  let st ← connectInputs o vdSource s
  connectOutputs o s st

def addSources (o : Options) (st : Generator) : Drawing Generator := do
  addSourcesAt o (← sourceVertex o st) st

/-! ## The whole generator -/

def generate (connected_components : Graph → Nat × (Nat → Nat)) (o : Options) : Drawing Generator := do
  let st ← clusterGraph o
  let st ← connectComponents connected_components o.prefixOf st
  addSources o st

end Generator

end SysteMoC.SNG
