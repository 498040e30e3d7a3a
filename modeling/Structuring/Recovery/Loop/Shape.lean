import Structuring.Recovery.Loop.Candidate
import Structuring.Recovery.Loop.Exit

/-! The four shapes of loops.

```text
while     head: cond; bf after; body; b head
do-until  head: body; cond; bf head
repeat    count; dup; 0; cmp LTE; bt after; head: body; 1; sub; dup; [conv]; bt head; after: popz
with      pushenv tail; head: body; tail: popenv head
```

Each shape checks its scaffolding, takes it out of the blocks, and converts the jumps inside.
-/

namespace Structuring.Recovery

open Bytecode FlowGraph

structure ShapedLoop where
  shape : LoopShape
  body : Option NodeId
  /-- The block that the loop flows into. -/
  exit : Option NodeId
  stop : Nat
  deriving DecidableEq, Repr

def isIncrementor (instructions : List Instruction) : Bool :=
  let stores := instructions.countP fun inst => inst.opcode == .pop || inst.opcode == .popz
  (instructions.getLast?.map (·.opcode)) == some .pop && stores == 1

/-- Shape a while loop. The condition is the first block of the loop on its level that leaves
it; without one the loop has no end of its own. -/
def shapeWhile (fragment : NodeId) (candidate : Candidate) (headTop : NodeId) :
    Recover ShapedLoop := do
  let tail := candidate.tail
  let start := candidate.start
  let stop := candidate.stop
  modifyGraph (·.dropBranch tail .b)
  let graph ← getGraph
  let blocks := blocksWithin graph fragment start stop
  let continuesAtHead := blocks.any fun block => (graph.node block).jumpTarget? == some start
  let condition := blocks.find? fun block =>
    (graph.node block).parent == some fragment && (graph.node block).targetOf? .bf == some stop
  let first (graph : FlowGraph) : Option NodeId :=
    condition.bind fun condition => (graph.node condition).successors.head?
  let hasIncrementor := !continuesAtHead && condition.isSome && first graph != some tail
    && isIncrementor (graph.node tail).instructions
  let continues := if hasIncrementor then [start, (graph.node tail).start] else [start]
  convertJumps fragment { start, stop, breaks := [stop], continues }
  let bodyStart := first (← getGraph)
  match condition with
  | some condition => modifyGraph (·.dropBranch condition .bf)
  | none => pure ()
  let context ← getContext
  let tailEmpty := (context.graph.node tail).instructions.isEmpty
  let body :=
    if condition.isNone then some headTop
    else if bodyStart = some tail ∧ tailEmpty then none
    else bodyStart
  return { shape := .whileLoop (!hasIncrementor) (if hasIncrementor then some tail else none)
           body, exit := context.nextBlock? tail, stop }

def shapeDoUntil (fragment : NodeId) (candidate : Candidate) (headTop : NodeId) :
    Recover ShapedLoop := do
  let tail := candidate.tail
  modifyGraph (·.dropBranch tail .bf)
  let graph ← getGraph
  let stop := (graph.node tail).stop
  convertJumps fragment
    { start := candidate.start, stop, breaks := [stop], continues := [(graph.node tail).start] }
  let context ← getContext
  return { shape := .doUntil, body := some headTop, exit := context.nextBlock? tail, stop }

def endsInCounterTest (instructions : List Instruction) (target : Nat) : Bool :=
  match instructions.reverse with
  | branch :: compare :: zero :: dup :: _ =>
    dup.opcode == .dup && zero.constant? == some 0 && compare.compares .lessEqual
      && branch.targetOf? .bt == some target
  | _ => false

def decrementLength (typed : Bool) : Nat := if typed then 5 else 4

/-- Whether instructions end in counting a repeat loop down and one more instruction, the
branch back. -/
def endsInDecrement (instructions : List Instruction) (typed : Bool) : Bool :=
  match typed, instructions.reverse with
  | true, _ :: conv :: dup :: sub :: one :: _ =>
    one.constant? == some 1 && sub.opcode == .sub && dup.opcode == .dup && conv.opcode == .conv
  | false, _ :: dup :: sub :: one :: _ =>
    one.constant? == some 1 && sub.opcode == .sub && dup.opcode == .dup
  | _, _ => false

def startsWithDiscard (instructions : List Instruction) : Bool :=
  (instructions.head?.map (·.opcode)) == some .popz

/-- Shape a repeat loop. Its counter is tested before, counted down at the tail, and discarded
after. -/
def shapeRepeat (source : Source) (fragment : NodeId) (candidate : Candidate) (headTop : NodeId) :
    Recover ShapedLoop := do
  let head := candidate.head
  let tail := candidate.tail
  let stop := candidate.stop
  let typed := source.features.has .typedBooleans
  let context ← getContext
  let graph := context.graph
  let tested := (context.previousBlock? head).filter fun block =>
    endsInCounterTest (graph.node block).instructions stop
  let discarded := (context.nextBlock? tail).filter fun block =>
    startsWithDiscard (graph.node block).instructions
  match tested with
  | none => throw (.malformed (graph.node head).range .noCounterTest)
  | some prelude =>
    if !endsInDecrement (graph.node tail).instructions typed then
      throw (.malformed (graph.node tail).range .noDecrement)
    match discarded with
    | none => throw (.malformed (graph.node tail).range .counterKept)
    | some exit =>
      modifyGraph fun graph => (graph.dropInstructions prelude 4).dropSecondEdge prelude
      modifyGraph fun graph =>
        (graph.dropInstructions tail (decrementLength typed)).clearSuccessors tail
      modifyGraph (·.shiftInstruction exit)
      convertJumps fragment
        { start := candidate.start, stop, breaks := [stop], continues := [(graph.node tail).start] }
      let tailEmpty := ((← getGraph).node tail).instructions.isEmpty
      let body := if head = tail ∧ tailEmpty then none else some headTop
      return { shape := .repeatLoop, body, exit := some exit, stop }

def isEnvironmentTail (node : Node) (start : Nat) : Bool :=
  match node.instructions with
  | [only] => only.targetOf? .popenv == some start
  | _ => false

/-- A block in a switch inside the loop that jumps to the tail. The value of the switch would
still be on the stack when the environment is left. -/
def switchContinue? (graph : FlowGraph) (claims : Claims) (fragment : NodeId)
    (start tailStart : Nat) : Option NodeId :=
  (fragmentBlocks graph fragment).find? fun block =>
    let inSwitch := claims.switches.any fun location =>
      location.fragment == fragment && start ≤ location.start
        && location.contains (graph.node block).start
    inSwitch && (graph.node block).jumpTarget? == some tailStart

/-- A jump over the block that drops the environment. -/
structure DropIdiom where
  jump : NodeId
  drop : NodeId
  target : Nat
  deriving DecidableEq, Repr

def dropIdiom? (context : Context) (tail : NodeId) : Option DropIdiom := do
  let graph := context.graph
  let jump ← context.nextBlock? tail
  let drop ← context.nextBlock? jump
  let target ←
    match (graph.node jump).instructions with
    | [only] => only.targetOf? .b
    | _ => none
  let drops :=
    match (graph.node drop).instructions with
    | [only] => only.opcode == .popenv && only.operand == .drop
    | _ => false
  if drops && (graph.node drop).stop ≤ target then some { jump, drop, target } else none

def clearDrop (graph : FlowGraph) (drop : NodeId) : FlowGraph :=
  let cleared := (graph.mapInstructions drop fun _ => []).clearSuccessors drop
  (cleared.node drop).predecessors.foldl
    (fun graph source => graph.removeAllEdges source drop) cleared

/-- Shape a with loop. If a jump over a dropping block follows it, the jump is the normal way
out and breaks go through the block. -/
def shapeWith (source : Source) (fragment : NodeId) (candidate : Candidate) (headTop : NodeId) :
    Recover ShapedLoop := do
  let head := candidate.head
  let tail := candidate.tail
  let start := candidate.start
  let context ← getContext
  let graph := context.graph
  let tailNode := graph.node tail
  match context.previousBlock? head with
  | none => throw (.malformed (.point start) .noEnvironmentBlock)
  | some prelude =>
    if !isEnvironmentTail tailNode start then
      throw (.malformed tailNode.range .noEnvironmentTail)
    match switchContinue? graph (← getClaims) fragment start tailNode.start with
    | some block => throw (.unsupported (graph.node block).range .continueFromSwitch)
    | none => pure ()
    let idiom := if source.features.has .withBreakBlocks then dropIdiom? context tail else none
    match idiom with
    | some idiom => modifyGraph (·.dropBranch idiom.jump .b)
    | none => pure ()
    let stop := (idiom.map (·.target)).getD tailNode.stop
    let breaks :=
      match idiom with
      | some idiom => [(graph.node idiom.drop).start, idiom.target]
      | none => [tailNode.stop]
    let exit :=
      match idiom with
      | some idiom => graph.blockAt? context.blocks idiom.target
      | none => context.nextBlock? tail
    modifyGraph fun graph => (graph.popIf prelude .pushenv).dropSecondEdge prelude
    modifyGraph (·.dropBranch tail .popenv)
    convertJumps fragment { start, stop, breaks, continues := [tailNode.start] }
    match idiom with
    | some idiom => modifyGraph (clearDrop · idiom.drop)
    | none => pure ()
    return { shape := .withLoop (idiom.map (·.drop))
             body := if head = tail then none else some headTop
             exit, stop }

end Structuring.Recovery
