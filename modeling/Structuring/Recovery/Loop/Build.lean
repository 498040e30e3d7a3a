import Structuring.Recovery.Loop.Shape

/-! Loops, built from the inside out, so that a loop sees the ones inside it as single nodes. -/

namespace Structuring.Recovery

open Bytecode FlowGraph

def shapeLoop (source : Source) (fragment : NodeId) (candidate : Candidate) (headTop : NodeId) :
    Recover ShapedLoop :=
  match candidate.shape with
  | .whileLoop => shapeWhile fragment candidate headTop
  | .doUntil => shapeDoUntil fragment candidate headTop
  | .repeatLoop => shapeRepeat source fragment candidate headTop
  | .withLoop => shapeWith source fragment candidate headTop

def buildLoop (source : Source) (fragment : NodeId) (candidate : Candidate) : Recover Unit := do
  let level := some fragment
  let graph ← getGraph
  let headTop := (graph.climb candidate.head level).getD candidate.head
  let tailTop := (graph.climb candidate.tail level).getD candidate.tail
  let shaped ← shapeLoop source fragment candidate headTop
  let after ← addNode (.sentinel .empty) shaped.stop shaped.stop none
  let loop ←
    addNode
      (.loop
        { shape := shaped.shape, head := headTop, tail := tailTop, body := shaped.body, after })
      candidate.start shaped.stop level
  modifyGraph (·.setParent after (some loop))
  modifyGraph (·.substitute headTop loop)
  let graph ← getGraph
  match shaped.exit.bind fun exit => graph.climb exit level with
  | some exit => modifyGraph (·.addEdge loop exit)
  | none => pure ()
  enclose loop level candidate.start shaped.stop
  tell (.loop source.code.name shaped.shape.name ⟨candidate.start, shaped.stop⟩)
  modifyContext fun context => { context with loops := context.loops ++ [loop] }

def buildFragmentLoops (source : Source) (fragment : NodeId) : Recover Bool := do
  match findCandidates (← getGraph) fragment with
  | .error failure => throw failure
  | .ok found =>
    match orderCandidates found with
    | .error failure => throw failure
    | .ok candidates =>
      candidates.forM (buildLoop source fragment)
      return !candidates.isEmpty

def buildLoops (source : Source) : Recover Bool := do
  (← getContext).fragments.foldlM
    (fun changed fragment => return (← buildFragmentLoops source fragment) || changed) false

end Structuring.Recovery
