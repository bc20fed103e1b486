import Mathlib.Data.List.Sort
import Mathlib.Data.String.Basic
import SysteMoC.SngDocument

/-!
# Dumping a hierarchy as an SNG document

The visitors that walk a hierarchy of graphs and actors: modules first, then channels, then
ports. Assertions are on, a failed one is `none`. Maps keyed by strings are kept in the order
of their keys.
-/

namespace SysteMoC.Dumper

open SNG (ActorTypeElement ActorInstanceElement ActorPortRef ChannelElement NetworkGraph PortElement tokenSizeAttr)

/-! ## The hierarchy after elaboration -/

/-- Addresses of entries and of outlets of channels. -/
inductive Interface where
  | entry (address : Nat)
  | outlet (address : Nat)
deriving DecidableEq, Repr

/-- An input port has one interface, an output port any number. -/
inductive Binding where
  | input (interface : Nat)
  | output (interfaces : List Nat)
deriving DecidableEq, Repr

structure Port where
  address : Nat
  name : String
  binding : Binding
  parent : Option Nat
  child : Option Nat
deriving DecidableEq, Repr

def Port.isInput (p : Port) : Bool :=
  match p.binding with
  | .input _ => true
  | .output _ => false

def Port.interfaces (p : Port) : List Interface :=
  match p.binding with
  | .input i => [.outlet i]
  | .output is => is.map .entry

/-- `className` is the demangled name of the C++ class. -/
structure Actor where
  name : String
  className : String
  ports : List Port
deriving DecidableEq, Repr

inductive ChanClass where
  | fifo (depthCount usedCount : Nat)
  | register
  | other
deriving DecidableEq, Repr

structure Chan where
  kind : ChanClass
  name : String
  tokenSize : Nat
  entries : List Nat
  outlets : List Nat
deriving DecidableEq, Repr

def Chan.interfaces (c : Chan) : List Interface := c.entries.map .entry ++ c.outlets.map .outlet

inductive Module where
  | actor (a : Actor)
  | graph (name : String) (modules : List Module) (chans : List Chan) (ports : List Port)

structure GraphBase where
  name : String
  modules : List Module
  chans : List Chan
  ports : List Port

/-! ## Names -/

/-- `rfind('.')`, with the assertion that the point is there and not in front. -/
def splitName (name : String) : Option (String × String) :=
  match name.toList.reverse.dropWhile (· ≠ '.') with
  | _ :: c :: cs =>
    some (String.ofList (c :: cs).reverse, String.ofList (name.toList.reverse.takeWhile (· ≠ '.')).reverse)
  | _ => none

/-- Internal modules have a leaf name that starts with `__smoc_`. -/
def reserved (name : String) : Bool :=
  "__smoc_".toList.isPrefixOf (name.toList.reverse.takeWhile (· ≠ '.')).reverse

/-! ## Ports -/

structure FlummyPort where
  actorName : String
  portName : String
  isInput : Bool
deriving DecidableEq, Repr

/-- `ExpectedPortConnections`; of `expectedOuterPorts` only the keys are read. -/
structure Expected where
  outer : List Nat
  conns : Interface → Option FlummyPort

def Expected.empty : Expected := ⟨[], fun _ => none⟩

/-- `ProcessSubVisitor`; `epc` is one hierarchy up. -/
structure Visitor where
  own : Expected
  epc : Expected
  ports : List (Nat × FlummyPort)

def flummyPort (p : Port) : Option FlummyPort :=
  (splitName p.name).map fun n => ⟨n.1, n.2, p.isInput⟩

def Visitor.addPort (v : Visitor) (address : Nat) (port : FlummyPort) : Option Visitor :=
  if address ∈ v.ports.map Prod.fst then none else some { v with ports := v.ports ++ [(address, port)] }

def Expected.connect (port : FlummyPort) (e : Expected) (i : Interface) : Option Expected :=
  if (e.conns i).isSome then none else some { e with conns := Function.update e.conns i (some port) }

/-- `getActorPort` follows the child ports, so it is the port itself where there is no child. -/
def connectPort (e : Expected) (p : Port) (port : FlummyPort) : Option Expected :=
  match p.child with
  | none => p.interfaces.foldlM (Expected.connect port) e
  | some _ => some e

def forwardPort (e : Expected) (p : Port) : Option Expected :=
  match p.parent with
  | none => some e
  | some q => if q ∈ e.outer then none else some { e with outer := e.outer ++ [q] }

def dumpPort (v : Visitor) (p : Port) : Option Visitor := do
  let port ← flummyPort p
  let v ← v.addPort p.address port
  let epc ← connectPort v.epc p port
  let epc ← forwardPort epc p
  return { v with epc := epc, own := { v.own with outer := v.own.outer.erase p.address } }

/-! ## Channels -/

/-- `sassert(m.insert(std::make_pair(k, v)).second)` -/
def insertOnce {V : Type} (m : List (String × V)) (k : String) (v : V) : Option (List (String × V)) :=
  if k ∈ m.map Prod.fst then none else some (m.orderedInsert (fun a b => a.1 ≤ b.1) (k, v))

/-- `typeNames` are the names the pool has given out. -/
structure SNGDumpCTX where
  actorTypeCache : List (String × String)
  typeNames : List String
  actorTypes : List (String × ActorTypeElement)
  actorInstances : List (String × ActorInstanceElement)
  channelInstances : List (String × ChannelElement)

structure Ends where
  conns : Interface → Option FlummyPort
  ports : List (String × FlummyPort)

def FlummyPort.key (port : FlummyPort) : String := port.actorName ++ "." ++ port.portName

/-- Takes the port that waits for `i` from the expected connections, if there is one. -/
def takePort (s : Ends) (i : Interface) : Option Ends :=
  match s.conns i with
  | none => some s
  | some port => (insertOnce s.ports port.key port).map fun ports => ⟨Function.update s.conns i none, ports⟩

def FlummyPort.ref (port : FlummyPort) : ActorPortRef := ⟨some port.actorName, some port.portName⟩

/-- What `DumpFifo` and `DumpRegister` share. -/
def dumpConnections (element : List ActorPortRef → List ActorPortRef → ChannelElement)
    (s : SNGDumpCTX × Expected) (c : Chan) : Option (SNGDumpCTX × Expected) := do
  let sources ← (c.entries.map Interface.entry).foldlM takePort ⟨s.2.conns, []⟩
  let targets ← (c.outlets.map Interface.outlet).foldlM takePort ⟨sources.conns, []⟩
  let channelInstances ← insertOnce s.1.channelInstances c.name
    (element (sources.ports.map (·.2.ref)) (targets.ports.map (·.2.ref)))
  return ({ s.1 with channelInstances := channelInstances }, { s.2 with conns := targets.conns })

def fifoElement (c : Chan) (depthCount usedCount : Nat) (sources targets : List ActorPortRef) : ChannelElement :=
  ⟨.fifo, some c.name, some (toString depthCount), some (toString usedCount), [tokenSizeAttr c.tokenSize],
    sources, targets⟩

def registerElement (c : Chan) (sources targets : List ActorPortRef) : ChannelElement :=
  ⟨.register, some c.name, none, none, [tokenSizeAttr c.tokenSize], sources, targets⟩

def dumpFifo (depthCount usedCount : Nat) (s : SNGDumpCTX × Expected) (c : Chan) : Option (SNGDumpCTX × Expected) :=
  dumpConnections (fifoElement c depthCount usedCount) s c

def dumpRegister (s : SNGDumpCTX × Expected) (c : Chan) : Option (SNGDumpCTX × Expected) :=
  dumpConnections (registerElement c) s c

/-- Other classes of channels are ignored. -/
def dumpChan (s : SNGDumpCTX × Expected) (c : Chan) : Option (SNGDumpCTX × Expected) :=
  match c.kind with
  | .fifo depthCount usedCount => dumpFifo depthCount usedCount s c
  | .register => dumpRegister s c
  | .other => some s

/-! ## Actors and graphs -/

/-- The set of port names of one direction, with the assertion that none comes twice. -/
def portNames (ports : List (Nat × FlummyPort)) (isInput : Bool) : Option (List String) :=
  let names := (ports.filter (·.2.isInput == isInput)).map (·.2.portName)
  if names.Nodup then some (names.insertionSort (· ≤ ·)) else none

def actorTypeKey (actorType : String) (inputPortNames outputPortNames : List String) : String :=
  actorType ++ String.join (inputPortNames.map (";" ++ · ++ "[IN]")) ++
    String.join (outputPortNames.map (";" ++ · ++ "[OUT]"))

def typeElement (type : String) (inputPortNames outputPortNames : List String) : ActorTypeElement :=
  ⟨some type, inputPortNames.map (fun n => ⟨some n, some "in"⟩) ++ outputPortNames.map fun n => ⟨some n, some "out"⟩⟩

/-- The type for an actor of class `actorType`, from the cache or new. -/
def dumpType (pool : List String → String → String) (ctx : SNGDumpCTX) (actorType : String)
    (inputPortNames outputPortNames : List String) : Option (SNGDumpCTX × String) :=
  let key := actorTypeKey actorType inputPortNames outputPortNames
  let cached := (ctx.actorTypeCache.lookup key).getD ""
  if cached = "" then
    let type := pool ctx.typeNames actorType
    (insertOnce ctx.actorTypes type (typeElement type inputPortNames outputPortNames)).map fun actorTypes =>
      ({ ctx with
        actorTypeCache := (key, type) :: ctx.actorTypeCache
        typeNames := ctx.typeNames ++ [type]
        actorTypes := actorTypes }, type)
  else some (ctx, cached)

def dumpActor (pool : List String → String → String) (s : SNGDumpCTX × Expected) (a : Actor) :
    Option (SNGDumpCTX × Expected) := do
  let sv ← a.ports.foldlM dumpPort ⟨.empty, s.2, []⟩
  let inputPortNames ← portNames sv.ports true
  let outputPortNames ← portNames sv.ports false
  let typed ← dumpType pool s.1 a.className inputPortNames outputPortNames
  let actorInstances ← insertOnce typed.1.actorInstances a.name ⟨some a.name, some typed.2⟩
  if sv.own.outer = [] then some ({ typed.1 with actorInstances := actorInstances }, sv.epc) else none

/-- The channels and ports of a graph after its modules, and the destructor of its visitor. -/
def closeGraph (sv : SNGDumpCTX × Expected) (epc : Expected) (chans : List Chan) (ports : List Port) :
    Option (SNGDumpCTX × Expected) := do
  let sv ← chans.foldlM dumpChan sv
  let psv ← ports.foldlM dumpPort ⟨sv.2, epc, []⟩
  if psv.own.outer = [] then
    some (sv.1, { psv.epc with conns := fun i => (psv.epc.conns i).or (psv.own.conns i) })
  else none

mutual

/-- `recurse` skips the internal modules. -/
def dumpModule (pool : List String → String → String) (s : SNGDumpCTX × Expected) :
    Module → Option (SNGDumpCTX × Expected)
  | .actor a => if reserved a.name then some s else dumpActor pool s a
  | .graph name modules chans ports =>
    if reserved name then some s else do
      let sv ← dumpModules pool (s.1, .empty) modules
      closeGraph sv s.2 chans ports

def dumpModules (pool : List String → String → String) (s : SNGDumpCTX × Expected) :
    List Module → Option (SNGDumpCTX × Expected)
  | [] => some s
  | m :: ms => do
    let s ← dumpModule pool s m
    dumpModules pool s ms

end

def dumpSNG (pool : List String → String → String) (g : GraphBase) : Option NetworkGraph := do
  let sv ← dumpModules pool (⟨[], [], [], [], []⟩, .empty) g.modules
  let s ← closeGraph sv .empty g.chans g.ports
  return ⟨s.1.actorTypes.map Prod.snd, s.1.actorInstances.map Prod.snd, s.1.channelInstances.map Prod.snd⟩

end SysteMoC.Dumper
