import SysteMoC.GeneratorDelays

/-!
# Communication sizes

The last step of `sng-generate-sdf` before the graph is written: the wanted bytes per
iteration of the graph are shared out among the channels. A `double` is a rational number,
and a conversion to `size_t` cuts off the fraction.
-/

namespace SysteMoC.SNG

namespace Generator

inductive CommError where
  | divisionByZero
  | undefinedConversion
  | assertion
  /-- The end of a range of edges is looked at. -/
  | noEdge
  | runtimeError (what : String)
deriving DecidableEq, Repr

structure CommOptions where
  /-- By channel. -/
  graphCommScaling : Nat → ℚ
  internalComm : Nat
  inputComm : Nat
  outputComm : Nat
  readRatio : Option ℚ
  internal_lt : internalComm < 2 ^ 64
  input_lt : inputComm < 2 ^ 64
  output_lt : outputComm < 2 ^ 64

def CommOptions.commScaling (q : CommOptions) (v : Nat) : ℚ := max 0 (q.graphCommScaling v)

def asserted (p : Prop) [Decidable p] : Except CommError Unit := if p then .ok () else .error .assertion

def quotient (a b : ℚ) : Except CommError ℚ := if b = 0 then .error .divisionByZero else .ok (a / b)

/-- Negative numbers and those that are too large have no conversion. -/
def toSize (a : ℚ) : Except CommError Nat := if 0 ≤ a ∧ a < 2 ^ 64 then .ok ⌊a⌋₊ else .error .undefinedConversion

/-! ## Sums over the channels -/

structure ScalingSums where
  singlecast : ℚ
  input : ℚ
  output : ℚ
  multicast : ℚ
  amplification : ℚ

def addScaling (q : CommOptions) (g : Graph) (s : ScalingSums) (v : Nat) : Except CommError ScalingSums :=
  match (g.vertices[v]?).map VertexInfo.type with
  | some (.fifo ..) => do
    let outputs := (g.outEdges v).length
    asserted (1 ≤ outputs)
    if 1 < outputs then
      return { s with
        multicast := s.multicast + q.commScaling v
        amplification := s.amplification + q.commScaling v * outputs }
    else return { s with singlecast := s.singlecast + q.commScaling v }
  | some (.register _) =>
    if (g.inEdges v).length = 0 then
      return { s with input := s.input + q.commScaling v * (g.outEdges v).length }
    else do
      asserted ((g.outEdges v).length = 0)
      return { s with output := s.output + q.commScaling v }
  | _ => return s

def scalingSums (q : CommOptions) (g : Graph) : Except CommError ScalingSums :=
  (List.range g.vertices.length).foldlM (addScaling q g) ⟨0, 0, 0, 0, 0⟩

/-! ## Shares of multicast and singlecast channels -/

structure Shares where
  multicastWrite : Nat
  singlecastComm : Nat
  singlecastSum : ℚ
  multicastSum : ℚ

def increaseDegrees : String :=
  "increase --cluster-output-multicast-degree >= --cluster-output-out-degree or --cluster-actor-multicast-degree >= --cluster-actor-out-degree!"

def shares (q : CommOptions) (s : ScalingSums) : Except CommError Shares :=
  match q.readRatio with
  | some readRatio => do
    let writeComm ← toSize (← quotient q.internalComm (1 + readRatio))
    let readComm ← toSize (← quotient (q.internalComm * readRatio) (1 + readRatio))
    -- the factor by which multicast data is amplified
    let x ← quotient s.amplification s.multicast
    let multicastWrite ← toSize (← quotient (sizeSub readComm writeComm) (x - 1))
    let singlecastComm := sizeSub writeComm multicastWrite
    if writeComm < multicastWrite then throw (.runtimeError increaseDegrees)
    return ⟨multicastWrite, singlecastComm, s.singlecast, s.multicast⟩
  | none =>
    let sum := 2 * s.singlecast + s.multicast + s.amplification
    return ⟨q.internalComm, q.internalComm, sum, sum⟩

/-! ## Token sizes -/

/-- The tokens that pass the edge `e` of the actor `vd` in one iteration of the graph. -/
def tokensPerIteration (g : Graph) (e : Edge) (vd : Nat) : Nat := e.tokens * (g.repCount? vd).getD 0

/-- A `size_t`. -/
def tokensTransmission (g : Graph) (e : Edge) (vd : Nat) : Nat := tokensPerIteration g e vd % 2 ^ 64

def tokenSize (commScaling scalingSum : ℚ) (comm tokensTransmission : Nat) : Except CommError Nat := do
  let normFactor ← quotient commScaling scalingSum
  toSize (← quotient (normFactor * comm) tokensTransmission)

def setTokenSize (q : CommOptions) (g : Graph) (s : ScalingSums) (sh : Shares) (vi : VertexInfo) (v : Nat) :
    Except CommError VertexInfo :=
  match vi.type, g.inEdges v, g.outEdges v with
  | .fifo _ capacity delay, [edProd], outEdges => do
    let tokensTransmission := tokensTransmission g edProd edProd.source
    asserted (1 ≤ outEdges.length)
    let size ←
      if 1 < outEdges.length then tokenSize (q.commScaling v) sh.multicastSum sh.multicastWrite tokensTransmission
      else tokenSize (q.commScaling v) sh.singlecastSum sh.singlecastComm tokensTransmission
    return { vi with type := .fifo size capacity delay }
  | .register _, [], edCons :: _ => do
    let size ← tokenSize (q.commScaling v) s.input q.inputComm (tokensTransmission g edCons edCons.target)
    return { vi with type := .register size }
  | .register _, edProd :: _, [] => do
    let size ← tokenSize (q.commScaling v) s.output q.outputComm (tokensTransmission g edProd edProd.source)
    return { vi with type := .register size }
  | .register _, [], [] => .error .noEdge
  | .actor _, _, _ => return vi
  | _, _, _ => .error .assertion

def assignTokenSizes (q : CommOptions) (g : Graph) : Except CommError Graph := do
  let s ← scalingSums q g
  let sh ← shares q s
  let vertices ← g.vertices.zipIdx.mapM fun (vi, v) => setTokenSize q g s sh vi v
  return { g with vertices }

/-! ## Bytes of an iteration -/

def channelTSize (g : Graph) (v : Nat) : Nat :=
  match (g.vertices[v]?).map VertexInfo.type with
  | some (.fifo tokenSize _ _) => tokenSize
  | some (.register tokenSize) => tokenSize
  | _ => 0

def bytesInto (g : Graph) (v : Nat) : Nat :=
  ((g.inEdges v).map fun e => tokensPerIteration g e e.source * channelTSize g v).sum

def bytesOutOf (g : Graph) (v : Nat) : Nat :=
  ((g.outEdges v).map fun e => tokensPerIteration g e e.target * channelTSize g v).sum

def internalBytesWritten (g : Graph) : Nat :=
  (((List.range g.vertices.length).filter g.isFifo).map (bytesInto g)).sum

def internalBytesRead (g : Graph) : Nat :=
  (((List.range g.vertices.length).filter g.isFifo).map (bytesOutOf g)).sum

end Generator

end SysteMoC.SNG
