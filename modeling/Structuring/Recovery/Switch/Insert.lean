import Structuring.Recovery.Jump
import Structuring.Recovery.Session

/-! Switches, built once everything inside them is structured.

Every comparison leads to a case jump in the place of its taken edge. Every destination gets
labels, those of cases in the order of dispatch and the default last. Labels that land on the
exit form a chain of their own. A break at the level of the switch leads to the next labels.
-/

namespace Structuring.Recovery

open Bytecode FlowGraph

/-- A destination and the labels that lead to it; each label says whether it is the default. -/
structure Destination where
  target : NodeId
  labels : List Bool
  deriving DecidableEq, Repr

def addLabel (target : NodeId) (isDefault : Bool) : List Destination → List Destination
  | [] => [⟨target, [isDefault]⟩]
  | first :: rest =>
    if first.target = target then { first with labels := first.labels ++ [isDefault] } :: rest
    else first :: addLabel target isDefault rest

def insertCaseJumps (switch : NodeId) (destinations : List Destination) :
    List NodeId → Recover (List Destination)
  | [] => pure destinations
  | compare :: rest => do
    let node := (← getGraph).node compare
    match node.successors with
    | [next, target] =>
      modifyGraph (·.dropBranch compare .bt)
      let jump ← addNode .caseJump node.stop node.stop (some switch)
      modifyGraph (·.addEdge compare jump)
      if !rest.isEmpty then modifyGraph (·.addEdge jump next)
      insertCaseJumps switch (addLabel target false destinations) rest
    | _ => throw (.malformed node.range .lostComparison)

/-- Drop the jump after the comparisons. It leads to the default unless it goes to the exit. -/
def insertDefault (location : SwitchLocation) (destinations : List Destination) :
    Recover (List Destination) := do
  let node := (← getGraph).node location.jumpBlock
  modifyGraph (·.dropBranch location.jumpBlock .b)
  match node.successors.head?, node.target? with
  | some target, some address =>
    return if address = location.stop then destinations else addLabel target true destinations
  | _, _ => return destinations

def addLabelNodes (switch : NodeId) (address : Nat) : List Bool → Recover (List NodeId)
  | [] => pure []
  | isDefault :: rest => do
    let id ← addNode (.caseLabel isDefault) address address (some switch)
    let more ← addLabelNodes switch address rest
    return id :: more

def linkNodes (graph : FlowGraph) : List NodeId → FlowGraph
  | first :: second :: rest => linkNodes (graph.addEdge first second) (second :: rest)
  | _ => graph

structure LabelPlacement where
  /-- The first label of each destination, with its address. -/
  heads : List (Nat × NodeId) := []
  body : Option NodeId := none
  /-- First and last of the labels that lead to the exit. -/
  exitLabels : Option (NodeId × NodeId) := none
  deriving DecidableEq, Repr

/-- Lead the chain of labels to the exit on to more labels, `first` to `last`. -/
def extendExitLabels (placement : LabelPlacement) (first last : NodeId) :
    Recover LabelPlacement := do
  match placement.exitLabels with
  | some (head, tail) =>
    modifyGraph (·.addEdge tail first)
    return { placement with exitLabels := some (head, last) }
  | none => return { placement with exitLabels := some (first, last) }

def placeLabels (switch : NodeId) (location : SwitchLocation) (placement : LabelPlacement)
    (destination : Destination) : Recover LabelPlacement := do
  let target := destination.target
  let address := ((← getGraph).node target).start
  let labels ← addLabelNodes switch address destination.labels
  modifyGraph (linkNodes · labels)
  match labels.head?, labels.getLast? with
  | some first, some last =>
    let heads := placement.heads ++ [(address, first)]
    if location.stop ≤ address then
      let placement ← extendExitLabels placement first last
      return { placement with heads }
    else
      modifyGraph fun graph => (graph.movePredecessors target first).addEdge last target
      return { placement with heads, body := placement.body.or (some first) }
  | _, _ => return placement

def breaksWithin (graph : FlowGraph) (level : Option NodeId) (location : SwitchLocation) :
    List NodeId :=
  graph.ids.filter fun id =>
    (graph.node id).kind == .sentinel .breaks && (graph.node id).parent == level
      && location.contains (graph.node id).start

def linkBreak (heads : List (Nat × NodeId)) (graph : FlowGraph) (breakNode : NodeId) : FlowGraph :=
  match heads.find? fun head => (graph.node breakNode).start < head.1 with
  | some head => graph.addEdge breakNode head.2
  | none => graph

/-- Lead what flows from inside a switch to its exit to the labels there instead. -/
def detachExit (graph : FlowGraph) (level : Option NodeId) (location : SwitchLocation)
    (exitLabel : Option NodeId) (exit : NodeId) : FlowGraph :=
  let inside := (graph.node exit).predecessors.filter fun id =>
    (graph.node id).parent == level && location.contains (graph.node id).start
  inside.foldl
    (fun graph id =>
      let cut := graph.removeEdge id exit
      match exitLabel with
      | some label => cut.addEdge id label
      | none => cut)
    graph

def dropDiscard (graph : FlowGraph) (block : NodeId) : FlowGraph :=
  match (graph.node block).instructions.head? with
  | some inst => if inst.opcode = .popz then graph.shiftInstruction block else graph
  | none => graph

/-- Lead what flows through a switch with its labels in place to them and to its exit, and take
what it covers into it. -/
def closeSwitch (location : SwitchLocation) (level : Option NodeId) (cases switch : NodeId)
    (exit : Option NodeId) (placement : LabelPlacement) : Recover Unit := do
  let exitLabel := placement.exitLabels.map (·.1)
  modifyGraph fun graph =>
    (breaksWithin graph level location).foldl (linkBreak placement.heads) graph
  match exit with
  | some exit => modifyGraph (detachExit · level location exitLabel exit)
  | none => pure ()
  modifyGraph (dropDiscard · location.endBlock)
  modifyGraph (·.mapKind switch fun _ =>
    .switch { cases, body := placement.body, endCases := exitLabel })
  modifyGraph (·.substitute cases switch)
  match exit with
  | some exit => modifyGraph (·.addEdge switch exit)
  | none => pure ()
  enclose switch level location.start location.stop

def insertSwitch (source : Source) (location : SwitchLocation) : Recover Unit := do
  let graph ← getGraph
  let level := (graph.node location.jumpBlock).parent
  if location.compareBlocks.any fun block => (graph.node block).parent ≠ level then
    throw (.unsupported location.range .splitDispatch)
  match graph.climb location.casesBlock level with
  | none => throw (.unsupported location.range .nestedSwitchValue)
  | some cases =>
    let exit := graph.climb location.endBlock level
    let switch ←
      addNode (.switch { cases, body := none, endCases := none }) location.start location.stop level
    let destinations ← insertCaseJumps switch [] location.compareBlocks
    let destinations ← insertDefault location destinations
    let graph ← getGraph
    let ordered := stableSort
      (fun first second => (graph.node first.target).start ≤ (graph.node second.target).start)
      destinations
    let placement ← ordered.foldlM (placeLabels switch location) {}
    closeSwitch location level cases switch exit placement
    tell (.switch source.code.name location.range destinations.length)
    modifyContext fun context => { context with switches := context.switches ++ [switch] }

/-- Build every located switch. The claims on them end here, whether or not they succeed. -/
def insertSwitches (source : Source) : Recover Bool := do
  let locations := (← getClaims).switches
  modifyClaims ({ · with switches := [] })
  locations.forM (insertSwitch source)
  return !locations.isEmpty

end Structuring.Recovery
