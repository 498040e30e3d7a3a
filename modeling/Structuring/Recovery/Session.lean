import Structuring.Bytecode.Code
import Structuring.Bytecode.Feature
import Structuring.Recovery.Event
import Structuring.Recovery.Failure
import Structuring.FlowGraph.Edge

/-! The state that passes work on.

A pass that fails keeps what it did before: a failure comes with the session it was met in.
-/

namespace Structuring.Recovery

open Bytecode FlowGraph

structure Source where
  code : Code
  features : Features
  deriving DecidableEq, Repr

/-- The graph of a code entry, and what is known about its nodes. -/
structure Context where
  graph : FlowGraph := {}
  /-- Blocks in address order; the last one is the empty block at the end of the entry. -/
  blocks : List NodeId := []
  /-- The fragment of the whole entry. -/
  root : Option NodeId := none
  /-- All fragments, the root first and then in address order. -/
  fragments : List NodeId := []
  loops : List NodeId := []
  chains : List NodeId := []
  conditionals : List NodeId := []
  switches : List NodeId := []
  staticInits : List NodeId := []
  deriving DecidableEq, Repr

/-- A chain of comparisons found to be the dispatch of a switch. -/
structure SwitchLocation where
  fragment : NodeId
  /-- The block that duplicates the value first. -/
  casesBlock : NodeId
  /-- The blocks that end in a comparison, in the order of dispatch. -/
  compareBlocks : List NodeId
  /-- The jump after the last comparison, to the default or to the exit. -/
  jumpBlock : NodeId
  /-- The block that starts by discarding the value. -/
  endBlock : NodeId
  start : Nat
  stop : Nat
  deriving DecidableEq, Repr

def SwitchLocation.contains (location : SwitchLocation) (address : Nat) : Bool :=
  location.start ≤ address && address < location.stop

def SwitchLocation.range (location : SwitchLocation) : AddressRange :=
  ⟨location.start, location.stop⟩

/-- What a pass has set apart for a later one. -/
structure Claims where
  /-- Located switches, innermost first. -/
  switches : List SwitchLocation := []
  /-- Blocks whose branches belong to a switch, without repetition. -/
  blocks : List NodeId := []
  deriving DecidableEq, Repr

namespace Claims

def isClaimed (claims : Claims) (block : NodeId) : Bool := claims.blocks.contains block

/-- Whether a jump leaves a located switch through its exit. -/
def isSwitchExit (claims : Claims) (source target : Nat) : Bool :=
  claims.switches.any fun location => location.stop == target && location.contains source

def claimBlock (claims : Claims) (block : NodeId) : Claims :=
  if claims.isClaimed block then claims else { claims with blocks := claims.blocks ++ [block] }

def claimSwitch (claims : Claims) (location : SwitchLocation) : Claims :=
  let claimed := (location.compareBlocks ++ [location.jumpBlock]).foldl claimBlock claims
  { claimed with switches := claimed.switches ++ [location] }

end Claims

structure Session extends context : Context where
  claims : Claims := {}
  /-- What was told, in order. -/
  log : Array Event := #[]
  deriving DecidableEq, Repr

abbrev Recover := EStateM Failure Session

def getContext : Recover Context := do return (← get).context

def getGraph : Recover FlowGraph := do return (← get).graph

def getClaims : Recover Claims := do return (← get).claims

def modifyContext (f : Context → Context) : Recover Unit :=
  modify fun session => ⟨f session.context, session.claims, session.log⟩

def modifyGraph (f : FlowGraph → FlowGraph) : Recover Unit :=
  modifyContext fun context => { context with graph := f context.graph }

def modifyClaims (f : Claims → Claims) : Recover Unit :=
  modify fun session => { session with claims := f session.claims }

def tell (event : Event) : Recover Unit :=
  modify fun session => { session with log := session.log.push event }

def addNode (kind : Kind) (start stop : Nat) (parent : Option NodeId) : Recover NodeId := do
  let id := (← getGraph).size
  modifyGraph (·.addNode kind start stop parent)
  return id

/-- Fail if an edge crosses the boundary of a structure. -/
def ensureClosed (owner : NodeId) : Recover Unit := do
  match openFailure? (← getGraph) owner with
  | some failure => throw failure
  | none => pure ()

/-- Take the nodes of a level that start in `[start, stop)` into a structure, which must then
be closed. -/
def enclose (owner : NodeId) (level : Option NodeId) (start stop : Nat) : Recover Unit := do
  modifyGraph (·.absorb owner level start stop)
  ensureClosed owner

def fragmentBlocks (graph : FlowGraph) (fragment : NodeId) : List NodeId :=
  match (graph.node fragment).kind with
  | .fragment parts => parts.blocks
  | _ => []

def blocksWithin (graph : FlowGraph) (fragment : NodeId) (start stop : Nat) : List NodeId :=
  (fragmentBlocks graph fragment).filter fun block => (graph.node block).startsWithin start stop

namespace Context

def nextBlock? (context : Context) (block : NodeId) : Option NodeId :=
  (context.graph.node block).block?.bind fun parts => context.blocks[parts.index + 1]?

def previousBlock? (context : Context) (block : NodeId) : Option NodeId :=
  (context.graph.node block).block?.bind fun parts =>
    if parts.index = 0 then none else context.blocks[parts.index - 1]?

end Context

end Structuring.Recovery
