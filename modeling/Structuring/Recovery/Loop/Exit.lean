import Structuring.Recovery.Jump
import Structuring.Recovery.Session

/-! Jumps inside a loop whose meaning is known once its extent is. -/

namespace Structuring.Recovery

open Bytecode FlowGraph

/-- Whether a jump ends the first arm of a conditional: an earlier `bf` goes to the address
right after it, and the jump lands beyond that. -/
def skipsElse (graph : FlowGraph) (blocks : List NodeId) (block : NodeId) (target : Nat) : Bool :=
  let node := graph.node block
  node.stop < target && blocks.any fun other =>
    (graph.node other).start < node.start && (graph.node other).targetOf? .bf == some node.stop

/-- Addresses that jumps in a loop may go to: the loop is `[start, stop)`, a jump to one of
`breaks` leaves it, and one to one of `continues` starts the next round. -/
structure LoopExits where
  start : Nat
  stop : Nat
  breaks : List Nat
  continues : List Nat
  deriving DecidableEq, Repr

/-- What a jump in a loop means. A jump that is left alone has no sentinel. -/
def LoopExits.meaning (exits : LoopExits) (graph : FlowGraph) (claims : Claims) (functionStop : Nat)
    (blocks : List NodeId) (block : NodeId) (target : Nat) : Except Failure (Option Sentinel) :=
  let node := graph.node block
  if claims.isSwitchExit node.start target then .ok none
  else if exits.breaks.contains target then .ok (some .breaks)
  else if exits.continues.contains target then
    .ok (if skipsElse graph blocks block target then none else some .continues)
  else if target = functionStop then .ok (some .returns)
  else if target < exits.start ∨ exits.stop ≤ target then
    .error (.unsupported node.range (.jumpOutOfLoop target ⟨exits.start, exits.stop⟩))
  else .ok none

def convertJump (fragment : NodeId) (exits : LoopExits) (blocks : List NodeId) (block : NodeId) :
    Recover Unit := do
  let graph ← getGraph
  match (graph.node block).jumpTarget? with
  | none => pure ()
  | some target =>
    match exits.meaning graph (← getClaims) (graph.node fragment).stop blocks block target with
    | .error failure => throw failure
    | .ok none => pure ()
    | .ok (some sentinel) =>
      tell (.jump (graph.node block).start target sentinel)
      modifyGraph fun graph => (graph.replaceJump block sentinel).1

def convertJumps (fragment : NodeId) (exits : LoopExits) : Recover Unit := do
  let blocks := blocksWithin (← getGraph) fragment exits.start exits.stop
  blocks.forM (convertJump fragment exits blocks)

end Structuring.Recovery
