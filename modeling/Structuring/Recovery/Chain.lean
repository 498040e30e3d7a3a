import Structuring.Recovery.Jump
import Structuring.Recovery.Session

/-! Chains of boolean operators.

```text
a; bf [false]        first condition (`bt [true]` for `or`)
b; bf [false]        second condition
c; b [done]          the last operand jumps over the constant
:[false] push.e 0    `push.e 1` for `or`
:[done] ...          consumer of the value
```
-/

namespace Structuring.Recovery

open Bytecode FlowGraph

structure Diamond where
  logic : Logic
  level : Option NodeId
  constant : NodeId
  consumer : NodeId
  jump : NodeId
  /-- The blocks that branch to the constant, in address order. -/
  conditions : List NodeId
  deriving DecidableEq, Repr

def branchOf : Logic → Opcode
  | .and => .bf
  | .or => .bt

def logicOf? (value : Int) : Option Logic :=
  if value = 0 then some .and else if value = 1 then some .or else none

def dropRepeats : List NodeId → List NodeId
  | [] => []
  | [id] => [id]
  | first :: second :: rest =>
    if first = second then dropRepeats (second :: rest) else first :: dropRepeats (second :: rest)

/-- The operator of a block that does nothing but push its early result. -/
def constantLogic? (node : Node) : Option Logic :=
  match node.instructions with
  | [push] => push.constant?.bind logicOf?
  | _ => none

/-- The only successor of a block, if it starts where the block stops. -/
def consumer? (graph : FlowGraph) (node : Node) : Option NodeId :=
  match node.successors with
  | [next] => if (graph.node next).start = node.stop then some next else none
  | _ => none

def isCondition (graph : FlowGraph) (claims : Claims) (level : Option NodeId) (logic : Logic)
    (address : Nat) (block : NodeId) : Bool :=
  (graph.node block).parent == level && !claims.isClaimed block
    && (graph.node block).targetOf? (branchOf logic) == some address

/-- The chain that a constant belongs to; `jump` is the block before it. -/
def diamondAt? (graph : FlowGraph) (claims : Claims) (jump constant : NodeId) : Option Diamond := do
  let node := graph.node constant
  let logic ← constantLogic? node
  let consumer ← consumer? graph node
  let level := (graph.node jump).parent
  let joined := (graph.node jump).jumpTarget? == some node.stop && node.parent == level
  let conditions := dropRepeats
    (stableSort (fun first second => (graph.node first).start ≤ (graph.node second).start)
      node.predecessors)
  if joined && !conditions.isEmpty
      && conditions.all (isCondition graph claims level logic node.start) then
    some { logic, level, constant, consumer, jump, conditions }
  else none

/-- Whether a block finishes a statement, so that what stands before it is no operand. -/
def endsStatement (node : Node) : Bool :=
  node.instructions.any fun inst =>
    match inst.opcode with
    | .pop | .popz | .popenv | .exit | .ret => true
    | _ => false

def isChain (node : Node) : Bool :=
  match node.kind with
  | .chain _ => true
  | _ => false

/-- Go back over the chains that flow into a node, at most `fuel` of them. -/
def leadingChain (graph : FlowGraph) (level : Option NodeId) : Nat → NodeId → NodeId
  | 0, id => id
  | fuel + 1, id =>
    match graph.lastNodeBefore? level (graph.node id).start with
    | some previous =>
      if isChain (graph.node previous) then leadingChain graph level fuel previous else id
    | none => id

/-- The node that a chain starts with. A chain built before may be the first operand. -/
def Diamond.first (graph : FlowGraph) (diamond : Diamond) : NodeId :=
  match diamond.conditions with
  | [] => diamond.constant
  | condition :: _ =>
    let top := (graph.climb condition diamond.level).getD condition
    if endsStatement (graph.node condition) then top
    else leadingChain graph diamond.level graph.size top

def dropConditions (opcode : Opcode) : List NodeId → Recover (List NodeId)
  | [] => pure []
  | condition :: rest => do
    let next := ((← getGraph).node condition).successors.head?
    modifyGraph (·.dropBranch condition opcode)
    let more ← dropConditions opcode rest
    return next.toList ++ more

def buildChain (source : Source) (diamond : Diamond) : Recover Unit := do
  let graph ← getGraph
  let first := diamond.first graph
  let start := (graph.node first).start
  let stop := (graph.node diamond.consumer).start
  let operands ← dropConditions (branchOf diamond.logic) diamond.conditions
  modifyGraph (·.dropBranch diamond.jump .b)
  modifyGraph (·.clearSuccessors diamond.constant)
  let chain ←
    addNode (.chain { logic := diamond.logic, operands := first :: operands }) start stop
      diamond.level
  modifyGraph (·.substitute first chain)
  modifyGraph (·.addEdge chain diamond.consumer)
  enclose chain diamond.level start stop
  tell (.chain source.code.name diamond.logic.name (diamond.conditions.length + 1) ⟨start, stop⟩)
  modifyContext fun context => { context with chains := context.chains ++ [chain] }

def buildChainAt (source : Source) (jump constant : NodeId) : Recover Bool := do
  match diamondAt? (← getGraph) (← getClaims) jump constant with
  | none => return false
  | some diamond =>
    buildChain source diamond
    return true

def buildChainsFrom (source : Source) (jump : NodeId) : List NodeId → Recover Bool
  | [] => return false
  | constant :: rest => do
    let built ← buildChainAt source jump constant
    let more ← buildChainsFrom source constant rest
    return built || more

def buildChains (source : Source) : Recover Bool := do
  if source.features.has .shortCircuit then
    match (← getContext).blocks with
    | [] => return false
    | first :: rest => buildChainsFrom source first rest
  else return false

end Structuring.Recovery
