import Structuring.Recovery.Session

/-! Dispatch chains of switches, found before their comparisons can be taken for conditions.

```text
<value>; dup; push 1; cmp EQ; bt [case1]   cases block, first comparison
         dup; push 2; cmp EQ; bt [case2]   comparison
         b [default or end]                jump block
...
:[end] popz                                end block
```

The graph stays as it is; what is found becomes a claim.
-/

namespace Structuring.Recovery

open Bytecode FlowGraph

def caseTarget? (node : Node) : Option Nat :=
  match node.instructions.reverse with
  | branch :: compare :: _ => if compare.compares .equal then branch.targetOf? .bt else none
  | _ => none

def isLoneJump (node : Node) : Bool :=
  match node.instructions with
  | [jump] => jump.opcode == .b
  | _ => false

def isCaseBefore (graph : FlowGraph) (jumpStart : Nat) (block : NodeId) : Bool :=
  match caseTarget? (graph.node block) with
  | some target => jumpStart < target
  | none => false

def duplicates (node : Node) : Bool := node.instructions.any (·.opcode == .dup)

structure Dispatch where
  fragment : NodeId
  casesBlock : NodeId
  compareBlocks : List NodeId
  jumpBlock : NodeId
  deriving DecidableEq, Repr

/-- Walk back from the comparison `current` to the first block of the dispatch. The blocks to
visit come last first. A label that is no constant puts blocks between the duplicated value
and its comparison; `atCompare` tells that none has been passed. -/
def walkDispatch (graph : FlowGraph) (jumpStart : Nat) (current : NodeId) (compares : List NodeId)
    (atCompare : Bool) : List NodeId → Except Failure (NodeId × List NodeId)
  | [] => .error (.malformed (graph.node current).range .noDuplicate)
  | block :: earlier =>
    if duplicates (graph.node block) then
      match earlier with
      | [] => .ok (block, compares)
      | previous :: _ =>
        if isCaseBefore graph jumpStart previous then
          walkDispatch graph jumpStart previous (previous :: compares) true earlier
        else .ok (block, compares)
    else if earlier.isEmpty || (!atCompare && (caseTarget? (graph.node block)).isSome) then
      .error (.malformed (graph.node current).range .noDuplicate)
    else walkDispatch graph jumpStart current compares false earlier

/-- The dispatch that ends in a jump block, if one does. The blocks before it come last
first. -/
def dispatchAt (graph : FlowGraph) (fragment : NodeId) (jump : NodeId) (before : List NodeId) :
    Except Failure (Option Dispatch) :=
  let jumpStart := (graph.node jump).start
  match before with
  | [] => .ok none
  | last :: _ =>
    if isLoneJump (graph.node jump) && isCaseBefore graph jumpStart last then
      match walkDispatch graph jumpStart last [last] true before with
      | .error failure => .error failure
      | .ok (casesBlock, compareBlocks) =>
        .ok (some { fragment, casesBlock, compareBlocks, jumpBlock := jump })
    else .ok none

def dispatchesFrom (graph : FlowGraph) (fragment : NodeId) (before : List NodeId) :
    List NodeId → Except Failure (List Dispatch)
  | [] => .ok []
  | block :: rest => do
    let found ← dispatchAt graph fragment block before
    let more ← dispatchesFrom graph fragment (block :: before) rest
    return found.toList ++ more

def findDispatches (context : Context) : Except Failure (List Dispatch) := do
  let graph := context.graph
  let found ← context.fragments.mapM fun fragment =>
    dispatchesFrom graph fragment [] (fragmentBlocks graph fragment)
  return stableSort
    (fun first second =>
      (graph.node second.casesBlock).start ≤ (graph.node first.casesBlock).start)
    found.flatten

def Dispatch.targets (graph : FlowGraph) (dispatch : Dispatch) : List Nat :=
  dispatch.compareBlocks.filterMap (fun block => caseTarget? (graph.node block))
    ++ (graph.node dispatch.jumpBlock).target?.toList

def isRepeatTail (node : Node) : Bool :=
  match node.targetOf? .bt with
  | some target => target ≤ node.start
  | none => false

def discards (node : Node) : Bool :=
  match node.instructions with
  | first :: _ => first.opcode == .popz
  | [] => false

/-- The first block from address `furthest` on that discards the value of the switch. A block
that another switch ends at, or that follows a repeat loop, discards something else. -/
def findExit? (graph : FlowGraph) (claimed : List NodeId) (furthest : Nat) (reached : Bool)
    (previous : Option NodeId) : List NodeId → Option NodeId
  | [] => none
  | block :: rest =>
    let reached := reached || (graph.node block).start == furthest
    let afterRepeat := previous.any fun previous => isRepeatTail (graph.node previous)
    if reached && discards (graph.node block) && !claimed.contains block && !afterRepeat then
      some block
    else findExit? graph claimed furthest reached (some block) rest

def Dispatch.locate (graph : FlowGraph) (claimed : List NodeId) (dispatch : Dispatch) :
    Except Failure SwitchLocation :=
  let start := (graph.node dispatch.casesBlock).start
  let targets := dispatch.targets graph
  let furthest := targets.max?.getD start
  match findExit? graph claimed furthest false none (fragmentBlocks graph dispatch.fragment) with
  | none =>
    .error (.malformed ⟨start, (graph.node dispatch.jumpBlock).stop⟩ .noSwitchExit)
  | some endBlock =>
    let stop := (graph.node endBlock).start
    match targets.find? (stop < ·) with
    | some target => .error (.malformed ⟨start, stop⟩ (.caseBeyondExit target))
    | none =>
      .ok { fragment := dispatch.fragment, casesBlock := dispatch.casesBlock
            compareBlocks := dispatch.compareBlocks, jumpBlock := dispatch.jumpBlock
            endBlock, start, stop }

/-- Claim the switches of the dispatches, inner ones before the ones around them. -/
def claimDispatches (source : Source) (claimed : List NodeId) : List Dispatch → Recover Unit
  | [] => pure ()
  | dispatch :: rest => do
    match dispatch.locate (← getGraph) claimed with
    | .error failure => throw failure
    | .ok location =>
      tell (.dispatch source.code.name location.compareBlocks.length location.range)
      modifyClaims (·.claimSwitch location)
      claimDispatches source (location.endBlock :: claimed) rest

def locateSwitches (source : Source) : Recover Bool := do
  match findDispatches (← getContext) with
  | .error failure => throw failure
  | .ok dispatches =>
    claimDispatches source [] dispatches
    return !(← getClaims).switches.isEmpty

end Structuring.Recovery
