import Structuring.Recovery.Jump
import Structuring.Recovery.Session

/-! Initializers of static variables, which run once.

```text
isstaticok.e
bt [done]
<initializers>
:[done]
setstatic.e
```
-/

namespace Structuring.Recovery

open Bytecode FlowGraph

def isStaticGuard (node : Node) : Bool :=
  match node.instructions.reverse with
  | branch :: check :: _ => check.signal? == some .isstaticok && branch.opcode == .bt
  | _ => false

/-- Whether the block at an address starts by marking the initializers as run. -/
def isMarked (context : Context) (address : Nat) : Bool :=
  match context.graph.blockAt? context.blocks address with
  | some block =>
    (((context.graph.node block).instructions.head?).bind (·.signal?)) == some .setstatic
  | none => false

/-- Wrap the initializers from `first` on; the guard, which stops at `start`, skips them to go to
`target`, at address `done`. -/
def wrapInitializers (source : Source) (guard first target : NodeId) (level : Option NodeId)
    (start done : Nat) : Recover Unit := do
  modifyGraph fun graph => (graph.dropInstructions guard 2).clearSuccessors guard
  let wrapper ← addNode (.staticInit first) start done level
  let head ←
    if first = target then addNode (.sentinel .empty) done done (some wrapper) else pure first
  modifyGraph (·.mapKind wrapper fun _ => .staticInit head)
  modifyGraph (·.cutEdgesInto level start done target)
  modifyGraph fun graph => (graph.addEdge guard wrapper).addEdge wrapper target
  enclose wrapper level start done
  let headKind := ((← getGraph).node head).kind.name
  tell (.staticInit source.code.name ⟨start, done⟩ headKind)
  modifyContext fun context => { context with staticInits := context.staticInits ++ [wrapper] }

def buildStaticInit (source : Source) (guard : NodeId) : Recover Unit := do
  let context ← getContext
  let node := context.graph.node guard
  match node.target? with
  | none => pure ()
  | some done =>
    if !isMarked context done then throw (.malformed node.range (.noStaticMark done))
    match node.successors with
    | [first, target] => wrapInitializers source guard first target node.parent node.stop done
    | _ => throw (.malformed node.range .oneWayGuard)

def buildStaticInits (source : Source) : Recover Bool := do
  if source.features.has .staticInit then
    let context ← getContext
    let guards := context.blocks.filter fun block => isStaticGuard (context.graph.node block)
    guards.forM (buildStaticInit source)
    return !guards.isEmpty
  else return false

end Structuring.Recovery
