import SysteMoC.SngGraph

/-!
# SNG documents

Documents as elements and attributes, the check against `sng.xsd`, `loadSNG` and
`saveSNG`. An absent attribute is `none`; white space around numbers is taken off. XML
syntax and the unused `fsm` of an actor type are left out. Assertions are on.
-/

namespace SysteMoC.SNG

structure PortElement where
  name : Option String
  type : Option String
deriving DecidableEq, Repr

structure ActorTypeElement where
  name : Option String
  ports : List PortElement
deriving DecidableEq, Repr

structure ActorInstanceElement where
  name : Option String
  type : Option String
deriving DecidableEq, Repr

structure ActorPortRef where
  actor : Option String
  port : Option String
deriving DecidableEq, Repr

structure OpenDSEAttr where
  name : Option String
  type : Option String
  value : Option String
deriving DecidableEq, Repr

inductive ChannelTag where
  | fifo
  | register
deriving DecidableEq, Repr

/-- `attrs` holds nested attributes too, in document order. -/
structure ChannelElement where
  tag : ChannelTag
  name : Option String
  size : Option String
  initial : Option String
  attrs : List OpenDSEAttr
  sources : List ActorPortRef
  targets : List ActorPortRef
deriving DecidableEq, Repr

structure NetworkGraph where
  actorTypes : List ActorTypeElement
  actorInstances : List ActorInstanceElement
  channels : List ChannelElement
deriving DecidableEq, Repr

/-! ## Lexical checks -/

def isLetter (c : Char) : Bool := c.isAlpha || c == '_'

def isAlnum (c : Char) : Bool := isLetter c || c.isDigit

def identifierRest : List Char → Bool
  | [] => true
  | '.' :: c :: cs => isLetter c && identifierRest cs
  | c :: cs => isAlnum c && identifierRest cs

def identifier (s : String) : Bool :=
  match s.toList with
  | [] => false
  | c :: cs => isLetter c && identifierRest cs

def isTypeChar (c : Char) : Bool := isAlnum c || c == '<' || c == '>' || c == ',' || c == ' '

def typeIdentifierRest : List Char → Bool
  | [] => true
  | ':' :: ':' :: c :: cs => isLetter c && typeIdentifierRest cs
  | c :: cs => isTypeChar c && typeIdentifierRest cs

def typeIdentifier (s : String) : Bool :=
  match s.toList with
  | [] => false
  | c :: cs => isLetter c && typeIdentifierRest cs

def digits (cs : List Char) : Bool := cs ≠ [] && cs.all Char.isDigit

def value (cs : List Char) : Nat := Nat.ofDigitChars 10 cs 0

def nonNegativeInteger (s : String) : Bool :=
  match s.toList with
  | '+' :: cs => digits cs
  | '-' :: cs => digits cs && value cs == 0
  | cs => digits cs

def positiveInteger (s : String) : Bool :=
  match s.toList with
  | '+' :: cs => digits cs && 0 < value cs
  | cs => digits cs && 0 < value cs

/-! ## The schema -/

namespace NetworkGraph

def validRef (r : ActorPortRef) : Bool := r.actor.all identifier && r.port.all identifier

def validPort (p : PortElement) : Bool := p.name.all identifier && p.type.all fun t => t == "in" || t == "out"

def validActorType (t : ActorTypeElement) : Bool :=
  t.name.all typeIdentifier && t.ports ≠ [] && t.ports.all validPort

def validActorInstance (i : ActorInstanceElement) : Bool := i.name.all identifier && i.type.all typeIdentifier

def validChannel (c : ChannelElement) : Bool :=
  c.sources.all validRef && c.targets.all validRef &&
    match c.tag with
    | .fifo => c.sources.length == 1 && c.targets.length == 1 && c.size.all positiveInteger &&
        c.initial.all nonNegativeInteger
    | .register => true

def valid (doc : NetworkGraph) : Bool :=
  doc.actorTypes ≠ [] && doc.actorTypes.all validActorType &&
    doc.actorInstances ≠ [] && doc.actorInstances.all validActorInstance && doc.channels.all validChannel

end NetworkGraph

/-! ## Loading -/

/-- An absent attribute reads as an empty one. -/
def getAttribute (a : Option String) : String := a.getD ""

/-- The digits at the front, if they fit. -/
def unsignedPrefix (cs : List Char) : Option Nat :=
  let ds := cs.takeWhile Char.isDigit
  if ds = [] ∨ 2 ^ 64 ≤ value ds then none else some (value ds)

/-- `std::stoul`. A minus negates the `unsigned long`. -/
def stoul (s : String) : Option Nat :=
  match s.toList.dropWhile Char.isWhitespace with
  | '+' :: cs => unsignedPrefix cs
  | '-' :: cs => (unsignedPrefix cs).map fun n => (2 ^ 64 - n) % 2 ^ 64
  | cs => unsignedPrefix cs

def ofInt (i : Int) : Nat := (i % 2 ^ 64).toNat

inductive Direction where
  | input
  | output
deriving DecidableEq, Repr

/-- `sassert(m.insert(..).second)` -/
def insertNew {α : Type} (m : List (String × α)) (k : String) (a : α) : Option (List (String × α)) :=
  if k ∈ m.map Prod.fst then none else some (m ++ [(k, a)])

def loadPort (ports : List (String × Direction)) (p : PortElement) : Option (List (String × Direction)) :=
  if getAttribute p.type = "in" then insertNew ports (getAttribute p.name) .input
  else if getAttribute p.type = "out" then insertNew ports (getAttribute p.name) .output
  else none

def loadActorType (types : List (String × List (String × Direction))) (t : ActorTypeElement) :
    Option (List (String × List (String × Direction))) := do
  let ports ← t.ports.foldlM loadPort []
  insertNew types (getAttribute t.name) ports

/-- An actor of the graph under construction: its ports and its vertex. -/
structure ActorInstance where
  ports : List (String × Direction)
  vd : Nat
deriving DecidableEq, Repr

structure Loading where
  g : Graph
  actorInstances : List (String × ActorInstance)

def loadActorInstance (types : List (String × List (String × Direction))) (s : Loading)
    (i : ActorInstanceElement) : Option Loading := do
  let ports ← types.lookup (getAttribute i.type)
  let actorInstances ← insertNew s.actorInstances (getAttribute i.name) ⟨ports, s.g.vertices.length⟩
  return ⟨s.g.addVertex ⟨getAttribute i.name, .actor unknown⟩, actorInstances⟩

/-- The vertex of a port with the given direction. -/
def connectPort (actorInstances : List (String × ActorInstance)) (direction : Direction) (r : ActorPortRef) :
    Option Nat := do
  let i ← actorInstances.lookup (getAttribute r.actor)
  let d ← i.ports.lookup (getAttribute r.port)
  if d = direction then some i.vd else none

def loadTokenSize (tokenSize : Int) (a : OpenDSEAttr) : Option Int :=
  if getAttribute a.name = "smoc-token-size" then
    if getAttribute a.type = "INT" then (stoul (getAttribute a.value)).map toInt else none
  else some tokenSize

/-- One end of a channel; `ends` gives source and target of the edge for the actor found. -/
def loadEnd (actorInstances : List (String × ActorInstance)) (direction : Direction) (ends : Nat → Nat × Nat)
    (tokenSize : Int) (g : Graph) (r : ActorPortRef) : Option Graph := do
  let v ← connectPort actorInstances direction r
  return g.addEdge (ends v).1 (ends v).2 ⟨getAttribute r.port, ofInt tokenSize, 1⟩

def loadSource (actorInstances : List (String × ActorInstance)) (vd : Nat) :=
  loadEnd actorInstances .output fun v => (v, vd)

def loadTarget (actorInstances : List (String × ActorInstance)) (vd : Nat) :=
  loadEnd actorInstances .input fun v => (vd, v)

def loadVertexType (c : ChannelElement) (tokenSize : Int) : Option VertexType :=
  match c.tag with
  | .fifo => do
    let capacity ← stoul (c.size.getD "1")
    let delay ← stoul (c.initial.getD "0")
    return .fifo (ofInt tokenSize) capacity delay
  | .register => some (.register (ofInt tokenSize))

def loadChannel (actorInstances : List (String × ActorInstance)) (g : Graph) (c : ChannelElement) :
    Option Graph := do
  let tokenSize ← c.attrs.foldlM loadTokenSize (-1)
  let type ← loadVertexType c tokenSize
  let vd := g.vertices.length
  let g := g.addVertex ⟨getAttribute c.name, type⟩
  let g ← c.sources.foldlM (loadSource actorInstances vd tokenSize) g
  c.targets.foldlM (loadTarget actorInstances vd tokenSize) g

def loadSNG (doc : NetworkGraph) : Option Graph := do
  let types ← doc.actorTypes.foldlM loadActorType []
  let s ← doc.actorInstances.foldlM (loadActorInstance types) ⟨.empty, []⟩
  let g ← (doc.channels.filter (·.tag = .fifo)).foldlM (loadChannel s.actorInstances) s.g
  (doc.channels.filter (·.tag = .register)).foldlM (loadChannel s.actorInstances) g

/-! ## Saving -/

/-- `SNGDumpCTX`; `typeNames` are the names the pool has given out. -/
structure SNGDumpCTX where
  actorTypeCache : List (String × String)
  typeNames : List String
  actorTypes : List ActorTypeElement
  actorInstances : List ActorInstanceElement
  fifoConnections : List ChannelElement

/-- The name up to its last point, in upper case and with `::` for points. -/
def typeScope : List Char → List Char
  | [] => []
  | c :: cs =>
    if '.' ∈ c :: cs then (if c = '.' then [':', ':'] else [c.toUpper]) ++ typeScope cs else []

def actorTypeKey (ins outs : List Edge) : String :=
  String.join (ins.map (·.name ++ "[IN]")) ++ String.join (outs.map (·.name ++ "[OUT]"))

/-- `pool` makes a name unique among those it has given out. -/
def saveActor (pool : List String → String → String) (g : Graph) (ctx : SNGDumpCTX) (v : Nat) (name : String) :
    SNGDumpCTX :=
  let ins := g.inEdges v
  let outs := g.outEdges v
  let key := actorTypeKey ins outs
  match ctx.actorTypeCache.lookup key with
  | some actorType =>
    { ctx with actorInstances := ctx.actorInstances ++ [⟨some name, some actorType⟩] }
  | none =>
    let actorType := pool ctx.typeNames (String.ofList (typeScope name.toList) ++ "A")
    { ctx with
      actorTypeCache := (key, actorType) :: ctx.actorTypeCache
      typeNames := ctx.typeNames ++ [actorType]
      actorTypes := ctx.actorTypes ++ [⟨some actorType,
        ins.map (fun e => ⟨some e.name, some "in"⟩) ++ outs.map fun e => ⟨some e.name, some "out"⟩⟩]
      actorInstances := ctx.actorInstances ++ [⟨some name, some actorType⟩] }

def nameOf (g : Graph) (v : Nat) : String := (g.vertices[v]?.map (·.name)).getD ""

def sourceRef (g : Graph) (e : Edge) : ActorPortRef := ⟨some (nameOf g e.source), some e.name⟩

def targetRef (g : Graph) (e : Edge) : ActorPortRef := ⟨some (nameOf g e.target), some e.name⟩

def tokenSizeAttr (tokenSize : Nat) : OpenDSEAttr :=
  ⟨some "smoc-token-size", some "INT", some (toString tokenSize)⟩

def saveVertex (pool : List String → String → String) (g : Graph) (ctx : SNGDumpCTX) (v : Nat) :
    Option SNGDumpCTX :=
  match g.vertices[v]? with
  | none => none
  | some ⟨name, .actor _⟩ => some (saveActor pool g ctx v name)
  | some ⟨name, .fifo tokenSize capacity delay⟩ =>
    some { ctx with
      fifoConnections := ctx.fifoConnections ++ (g.outEdges v).map fun e =>
        ⟨.fifo, some name, some (toString capacity), some (toString delay), [tokenSizeAttr tokenSize],
          (g.inEdges v).map (sourceRef g), [targetRef g e]⟩ }
  | some ⟨name, .register tokenSize⟩ =>
    if g.inEdges v = [] ∨ g.outEdges v = [] then
      some { ctx with
        fifoConnections := ctx.fifoConnections ++ [⟨.register, some name, none, none, [tokenSizeAttr tokenSize],
          (g.inEdges v).map (sourceRef g), (g.outEdges v).map (targetRef g)⟩] }
    else none

def saveSNG (pool : List String → String → String) (g : Graph) : Option NetworkGraph := do
  let ctx ← (List.range g.vertices.length).foldlM (saveVertex pool g) ⟨[], [], [], [], []⟩
  return ⟨ctx.actorTypes, ctx.actorInstances, ctx.fifoConnections⟩

end SysteMoC.SNG
