import Structuring.Recovery.Jump
import Structuring.Recovery.Session

/-! Fragments, one for each function body.

A nested body is skipped by a jump just before it. A fragment node takes the place of that
jump, so the code around the body runs into the fragment and on to what follows the body. A
jump that leaves a nested body is a return, and falling off its end leads nowhere.
-/

namespace Structuring.Recovery

open Bytecode FlowGraph

/-- Leave the fragments that stop at or before an address. The stack starts with the
innermost open fragment, and the root stays. -/
def closeFragments (graph : FlowGraph) (address : Nat) : List NodeId → List NodeId
  | inner :: outer :: rest =>
    if (graph.node inner).stop ≤ address then closeFragments graph address (outer :: rest)
    else inner :: outer :: rest
  | stack => stack

/-- The function that starts at an address; the entry itself is none. -/
def childAt? (code : Code) (address : Nat) : Option ChildEntry :=
  code.children.find? fun child => child.start == address && child.start != 0

/-- Where the jump at the end of `previous` leads, if it skips a body that starts at `start`
within a fragment that stops at `limit`. -/
def skipTarget? (previous : Node) (start limit : Nat) : Option Nat :=
  previous.jumpTarget?.filter fun target => start < target && target ≤ limit

/-- Put a fragment in the place of the jump that skips a nested body. -/
def openFragment (current previous : NodeId) (child : ChildEntry) (stop : Nat) :
    Recover NodeId := do
  let after := ((← getGraph).node previous).successors.head?
  modifyGraph (·.dropBranch previous .b)
  let fragment ←
    addNode (.fragment { name := child.name, entry := none, blocks := [] }) child.start stop
      (some current)
  modifyGraph (·.addEdge previous fragment)
  match after with
  | some after => modifyGraph (·.addEdge fragment after)
  | none => pure ()
  tell (.fragment child.name ⟨child.start, stop⟩)
  modifyContext fun context => { context with fragments := context.fragments ++ [fragment] }
  return fragment

def ownBlock (graph : FlowGraph) (owner block : NodeId) : FlowGraph :=
  (graph.setParent block (some owner)).mapKind owner fun kind =>
    match kind with
    | .fragment parts =>
      .fragment
        { parts with entry := parts.entry.or (some block), blocks := parts.blocks ++ [block] }
    | kind => kind

def fragmentsAt (source : Source) (previous : Option NodeId) (stack : List NodeId)
    (current block : NodeId) : Recover (List NodeId) := do
  let graph ← getGraph
  let start := (graph.node block).start
  match childAt? source.code start with
  | none => return stack
  | some child =>
    if source.features.has .nestedFunctions then
      let skip := previous.bind fun previous =>
        (skipTarget? (graph.node previous) start (graph.node current).stop).map (previous, ·)
      match skip with
      | none => throw (.malformed (.point start) (.childNotSkipped child.name))
      | some (previous, stop) =>
        let fragment ← openFragment current previous child stop
        return fragment :: stack
    else
      tell (.inlineChild source.code.name child.name)
      return stack

def assignBlocks (source : Source) (root : NodeId) (previous : Option NodeId)
    (stack : List NodeId) : List NodeId → Recover (List NodeId)
  | [] => pure stack
  | block :: rest => do
    let graph ← getGraph
    let stack := closeFragments graph (graph.node block).start stack
    let stack ← fragmentsAt source previous stack (stack.head?.getD root) block
    modifyGraph (ownBlock · (stack.head?.getD root) block)
    assignBlocks source root (some block) stack rest

/-- Cut the edges of a block that leave its fragment. -/
def confineBlock (fragment : NodeId) (isRoot : Bool) (block : NodeId) : Recover Unit := do
  let graph ← getGraph
  let node := graph.node block
  let leaving := node.successors.filter fun id => (graph.node id).parent ≠ some fragment
  if leaving.isEmpty then return
  if isRoot then throw (.malformed node.range .jumpIntoFunction)
  if node.jumpTarget?.isSome then
    modifyGraph fun graph => (graph.replaceJump block .returns).1
  else
    let leavesTo (target : Nat) : Bool := leaving.any fun id => (graph.node id).start == target
    match node.target?.filter leavesTo with
    | some target => throw (.malformed node.range (.branchOutOfFunction target))
    | none =>
      modifyGraph fun graph => leaving.foldl (fun graph id => graph.removeEdge block id) graph

def confine (root fragment : NodeId) : Recover Unit := do
  (fragmentBlocks (← getGraph) fragment).forM (confineBlock fragment (fragment == root))

def buildFragments (source : Source) : Recover Bool := do
  if (← getContext).root.isSome then return false
  let root ←
    addNode (.fragment { name := source.code.name, entry := none, blocks := [] }) 0
      source.code.length none
  modifyContext fun context =>
    { context with root := some root, fragments := context.fragments ++ [root] }
  let stack ← assignBlocks source root none [root] (← getContext).blocks
  match stack with
  | inner :: _ :: _ => throw (.malformed ((← getGraph).node inner).range .openFragment)
  | _ => pure ()
  (← getContext).fragments.forM (confine root)
  return true

end Structuring.Recovery
