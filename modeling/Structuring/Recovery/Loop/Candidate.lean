import Structuring.Recovery.Session

/-! Back edges that make loops.

A jump back makes a while loop, with its last back edge as the tail; `bf` back makes a
do-until loop, `bt` back a repeat loop. A with loop goes from `pushenv` to its target, which
must be the only place for a `popenv` back.
-/

namespace Structuring.Recovery

open Bytecode FlowGraph

inductive CandidateShape where
  | whileLoop
  | doUntil
  | repeatLoop
  | withLoop
  deriving DecidableEq, Repr

/-- A loop that is not built yet; its head and tail are blocks. -/
structure Candidate where
  shape : CandidateShape
  head : NodeId
  tail : NodeId
  start : Nat
  stop : Nat
  deriving DecidableEq, Repr

structure CandidateScan where
  candidates : List Candidate := []
  whileHeads : List Nat := []
  withTails : List NodeId := []
  environmentTails : List NodeId := []
  deriving DecidableEq, Repr

/-- Visit a block that goes back to `head`, where it starts at `target`. A jump back to a head
that has its tail already is a `continue`. -/
def CandidateScan.addBackEdge (scan : CandidateScan) (graph : FlowGraph) (block : NodeId)
    (opcode : Opcode) (head : NodeId) (target : Nat) : CandidateScan :=
  let stop := (graph.node block).stop
  let candidate (shape : CandidateShape) : CandidateScan :=
    { scan with candidates := scan.candidates ++ [⟨shape, head, block, target, stop⟩] }
  match opcode with
  | .b =>
    if scan.whileHeads.contains target then scan
    else { candidate .whileLoop with whileHeads := target :: scan.whileHeads }
  | .bf => candidate .doUntil
  | .bt => candidate .repeatLoop
  | .popenv => { scan with environmentTails := scan.environmentTails ++ [block] }
  | _ => scan

/-- Visit a block that ends in `pushenv`: the loop lies between the block after it and the
target. -/
def CandidateScan.addEnvironment (scan : CandidateScan) (graph : FlowGraph) (head tail : NodeId) :
    CandidateScan :=
  { scan with
    candidates :=
      scan.candidates ++ [⟨.withLoop, head, tail, (graph.node head).start, (graph.node tail).stop⟩]
    withTails := tail :: scan.withTails }

def CandidateScan.visit (scan : CandidateScan) (graph : FlowGraph) (blocks : List NodeId)
    (next : Option NodeId) (block : NodeId) : Except Failure CandidateScan :=
  let node := graph.node block
  let noShape : Failure := .malformed node.range .noLoopShape
  match node.lastOpcode?, node.target? with
  | some opcode, some target =>
    if opcode = .pushenv then
      match next, graph.blockAt? blocks target with
      | some head, some tail => .ok (scan.addEnvironment graph head tail)
      | _, _ => .error noShape
    else if node.start < target then .ok scan
    else
      match graph.blockAt? blocks target with
      | some head => .ok (scan.addBackEdge graph block opcode head target)
      | none => .error noShape
  | _, _ => .ok scan

/-- Visit the blocks of `remaining`, which come last first. -/
def CandidateScan.run (scan : CandidateScan) (graph : FlowGraph) (blocks : List NodeId)
    (next : Option NodeId) : List NodeId → Except Failure CandidateScan
  | [] => .ok scan
  | block :: rest =>
    match scan.visit graph blocks next block with
    | .error failure => .error failure
    | .ok scan => scan.run graph blocks (some block) rest

def findCandidates (graph : FlowGraph) (fragment : NodeId) : Except Failure (List Candidate) :=
  let blocks := fragmentBlocks graph fragment
  match CandidateScan.run {} graph blocks none blocks.reverse with
  | .error failure => .error failure
  | .ok scan =>
    match scan.environmentTails.find? fun block => !scan.withTails.contains block with
    | some stray => .error (.malformed (graph.node stray).range .noLoopShape)
    | none => .ok scan.candidates

/-- Whether a candidate comes before another: a shorter one first, then an earlier one. -/
def Candidate.precedes (first second : Candidate) : Bool :=
  let firstLength := first.stop - first.start
  let secondLength := second.stop - second.start
  firstLength < secondLength || (firstLength == secondLength && first.start ≤ second.start)

/-- Put candidates in the order in which they are built, inner loops first. Two or more have
an order only if each has an extent. -/
def orderCandidates (candidates : List Candidate) : Except Failure (List Candidate) :=
  if 2 ≤ candidates.length ∧ candidates.any (fun candidate => candidate.stop < candidate.start) then
    .error .negativeExtent
  else .ok (stableSort Candidate.precedes candidates)

end Structuring.Recovery
