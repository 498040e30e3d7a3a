import Structuring.Recovery.Chain
import Structuring.Recovery.StaticInit

/-! Conditionals with and without an `else`.

```text
c; bf [else]      c; bf [join]
<then>            <then>
b [join]          :[join]
:[else] <else>
:[join]
```

They are built from the highest address down, so that what is nested in an arm is a single
node when the arm is looked at.
-/

namespace Structuring.Recovery

open Bytecode FlowGraph

/-- Whether a block in the body of a located switch jumps to its exit. -/
def breaksSwitch (graph : FlowGraph) (location : SwitchLocation) (block : NodeId) : Bool :=
  let node := graph.node block
  (graph.node location.jumpBlock).start < node.start && node.start < location.stop
    && node.jumpTarget? == some location.stop

def convertSwitchBreak (location : SwitchLocation) (block : NodeId) : Recover Bool := do
  if breaksSwitch (← getGraph) location block then
    modifyGraph fun graph => (graph.replaceJump block .breaks).1
    return true
  else return false

def convertSwitchBreaks : Recover Bool := do
  (← getClaims).switches.foldlM
    (fun changed location => do
      (fragmentBlocks (← getGraph) location.fragment).foldlM
        (fun changed block => return (← convertSwitchBreak location block) || changed) changed)
    false

structure Arms where
  /-- First node of the arm for true, unless it is empty. -/
  whenTrue : Option NodeId
  /-- First node of the other arm, if the source has one with something in it. -/
  otherwise : Option NodeId
  /-- Whether the source has an `else` with nothing in it. -/
  emptyElse : Bool
  join : NodeId
  joinAddress : Nat
  deriving DecidableEq, Repr

def dropArmJump (first last : NodeId) : Recover NodeId := do
  let replaced := (← getGraph).replaceJump last .empty
  modifyGraph fun _ => replaced.1
  return if last = first then replaced.2 else first

/-- Find the arms of a conditional whose branch goes to `target`, at `address`; otherwise it
falls into `first`. -/
def findArms (level : Option NodeId) (start : Nat) (first target : NodeId) (address : Nat) :
    Recover Arms := do
  if first = target then
    return { whenTrue := none, otherwise := none, emptyElse := false, join := target
             joinAddress := address }
  let graph ← getGraph
  match graph.lastNodeBefore? level address with
  | none => throw (.unsupported ⟨start, address⟩ .noThenEnd)
  | some last =>
    let node := graph.node last
    match node.jumpTarget? with
    | some skip =>
      if skip = address then
        let first ← dropArmJump first last
        return { whenTrue := some first, otherwise := none, emptyElse := true, join := target
                 joinAddress := address }
      else if address < skip then
        match node.successors.head? with
        | none => throw (.malformed node.range .lostJump)
        | some join =>
          let first ← dropArmJump first last
          return { whenTrue := some first, otherwise := some target, emptyElse := false, join
                   joinAddress := skip }
      else throw (.unsupported node.range (.thenJumpsBack skip))
    | none =>
      if node.successors.isEmpty ∨ node.successors = [target] then
        return { whenTrue := some first, otherwise := none, emptyElse := false, join := target
                 joinAddress := address }
      else throw (.unsupported node.range .thenMissesJoin)

/-- A node, or a new empty one at an address. The new node has no parent yet and is also
returned by itself. -/
def orEmpty (id : Option NodeId) (address : Nat) : Recover (NodeId × List NodeId) := do
  match id with
  | some id => return (id, [])
  | none =>
    let id ← addNode (.sentinel .empty) address address none
    return (id, [id])

/-- Put a conditional around its arms; the branch at `condition` goes to `address`. -/
def wrapArms (source : Source) (condition : NodeId) (level : Option NodeId) (start address : Nat)
    (arms : Arms) : Recover Unit := do
  modifyGraph (·.dropBranch condition .bf)
  modifyGraph (·.cutEdgesInto level start arms.joinAddress arms.join)
  let (whenTrue, freshTrue) ← orEmpty arms.whenTrue address
  let (whenFalse, freshFalse) ← orEmpty arms.otherwise address
  let otherwise := if arms.emptyElse then some whenFalse else arms.otherwise
  let conditional ←
    addNode (.conditional { condition, whenTrue, whenFalse, otherwise }) start arms.joinAddress level
  (freshTrue ++ freshFalse).forM fun id => modifyGraph (·.setParent id (some conditional))
  modifyGraph (·.substitute condition conditional)
  modifyGraph (·.addEdge conditional arms.join)
  enclose conditional level start arms.joinAddress
  tell (.conditional source.code.name otherwise.isSome ⟨start, arms.joinAddress⟩)
  modifyContext fun context => { context with conditionals := context.conditionals ++ [conditional] }

def buildConditional (source : Source) (condition : NodeId) : Recover Unit := do
  let node := (← getGraph).node condition
  let start := node.start
  let level := node.parent
  match node.target? with
  | none => pure ()
  | some address =>
    if address ≤ start then throw (.unsupported node.range (.backwardCondition address))
    match node.successors with
    | [first, target] =>
      let arms ← findArms level start first target address
      wrapArms source condition level start address arms
    | _ => throw (.malformed node.range .oneWayCondition)

def isReserved (source : Source) (claims : Claims) (node : Node) (block : NodeId)
    (inst : Instruction) : Bool :=
  claims.isClaimed block
    || (inst.opcode == .bt && source.features.has .staticInit && isStaticGuard node)

def leftoverFailure? (source : Source) (context : Context) (claims : Claims) (block : NodeId) :
    Option Failure :=
  let node := context.graph.node block
  node.last?.bind fun inst =>
    if inst.isBranch && !isReserved source claims node block inst then
      some (.unsupported ⟨inst.address, inst.nextAddress⟩ (.unstructuredJump inst.opcode))
    else none

/-- Build the boolean chains, then every conditional, and refuse what branches are left. -/
def buildConditionals (source : Source) : Recover Bool := do
  let chained ← buildChains source
  let broken ← convertSwitchBreaks
  let context ← getContext
  let claims ← getClaims
  let conditions := context.blocks.reverse.filter fun block =>
    !claims.isClaimed block && (context.graph.node block).lastOpcode? == some .bf
  conditions.forM (buildConditional source)
  let context ← getContext
  match context.blocks.findSome? (leftoverFailure? source context claims) with
  | some failure => throw failure
  | none => return chained || broken || !conditions.isEmpty

end Structuring.Recovery
