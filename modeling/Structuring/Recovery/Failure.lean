import Structuring.FlowGraph.Check
import Structuring.FlowGraph.Nesting

/-! Why a code entry cannot be structured. -/

namespace Structuring.Recovery

open Bytecode FlowGraph Number

/-- A code entry that breaks a rule every compiler keeps. -/
inductive Malformation where
  | branchTarget (opcode : Opcode) (target length : Nat)
  | childStart (name : String)
  | missingBlock (target : Nat)
  | childNotSkipped (name : String)
  | openFragment
  | jumpIntoFunction
  | branchOutOfFunction (target : Nat)
  | noDuplicate
  | noSwitchExit
  | caseBeyondExit (target : Nat)
  | lostComparison
  | noLoopShape
  | noCounterTest
  | noDecrement
  | counterKept
  | noEnvironmentBlock
  | noEnvironmentTail
  | oneWayCondition
  | lostJump
  | noStaticMark (target : Nat)
  | oneWayGuard
  deriving DecidableEq, Repr

def Malformation.text : Malformation → String
  | branchTarget opcode target length =>
    "`" ++ opcode.mnemonic ++ "` targets " ++ hex target ++ ", which is not an instruction in 0x0.."
      ++ hex length
  | childStart name => "function `" ++ name ++ "` does not start on an instruction"
  | missingBlock target => "no block starts at branch target " ++ hex target
  | childNotSkipped name => "unterminated fragment: `" ++ name ++ "` is not jumped over"
  | openFragment => "unterminated fragment"
  | jumpIntoFunction => "jump into a nested function body"
  | branchOutOfFunction target => "conditional branch to " ++ hex target ++ " leaves its function"
  | noDuplicate => "switch comparison without a duplicated value"
  | noSwitchExit => "switch without a `popz` exit"
  | caseBeyondExit target => "switch case at " ++ hex target ++ " lies past the exit"
  | lostComparison => "switch comparison lost its branch"
  | noLoopShape => "back-edge matches no loop shape"
  | noCounterTest => "back-edge matches no loop shape: repeat counter test not found"
  | noDecrement => "back-edge matches no loop shape: repeat decrement not found"
  | counterKept => "back-edge matches no loop shape: repeat counter is not discarded"
  | noEnvironmentBlock => "pushenv without a block"
  | noEnvironmentTail =>
    "back-edge matches no loop shape: pushenv target is not `popenv` to the body"
  | oneWayCondition => "conditional branch without two successors"
  | lostJump => "jump without a successor"
  | noStaticMark target =>
    "static guard target " ++ hex target ++ " does not start with `setstatic`"
  | oneWayGuard => "static guard without two successors"

/-- Control flow that no structure expresses. -/
inductive Obstacle where
  | crossing (kind : String) (start : Nat) (boundary : String)
  | splitDispatch
  | nestedSwitchValue
  | continueFromSwitch
  | jumpOutOfLoop (target : Nat) (loop : AddressRange)
  | backwardCondition (target : Nat)
  | noThenEnd
  | thenJumpsBack (target : Nat)
  | thenMissesJoin
  | unstructuredJump (opcode : Opcode)
  deriving DecidableEq, Repr

def Obstacle.text : Obstacle → String
  | crossing kind start boundary =>
    kind ++ " at " ++ hex start ++ " has control flow crossing the " ++ boundary ++ " boundary"
  | splitDispatch => "switch dispatch is split across structures"
  | nestedSwitchValue => "switch value is computed inside another structure"
  | continueFromSwitch => "`continue` from a switch inside a `with` loop"
  | jumpOutOfLoop target loop => "jump to " ++ hex target ++ " leaves the loop at " ++ loop.text
  | backwardCondition target => "backward conditional jump to " ++ hex target
  | noThenEnd => "no node ends the `then` arm"
  | thenJumpsBack target => "`then` arm jumps back to " ++ hex target
  | thenMissesJoin => "`then` arm does not reach its join point"
  | unstructuredJump opcode => "unstructured jump `" ++ opcode.mnemonic ++ "`"

inductive Violation where
  | edges (mismatch : EdgeMismatch)
  | jump (remaining : RemainingJump)
  deriving DecidableEq, Repr

def Violation.text : Violation → String
  | edges mismatch => mismatch.text
  | jump remaining => remaining.text

inductive Failure where
  | malformed (range : AddressRange) (cause : Malformation)
  | unsupported (range : AddressRange) (cause : Obstacle)
  /-- The named pass left the graph inconsistent. -/
  | invariant (pass : String) (violation : Violation)
  /-- Loop candidates cannot be put in order, because one stops before it starts. -/
  | negativeExtent
  deriving DecidableEq, Repr

inductive Report where
  | malformed (range : AddressRange) (message : String)
  | unsupported (range : AddressRange) (message : String)
  | invariant (pass : String) (message : String)
  deriving DecidableEq, Repr

namespace Report

def text : Report → String
  | malformed range message => "malformed bytecode at " ++ range.text ++ ": " ++ message
  | unsupported range message => "unsupported control flow at " ++ range.text ++ ": " ++ message
  | invariant pass message => "internal error after `" ++ pass ++ "`: " ++ message

def isInternal : Report → Bool
  | invariant _ _ => true
  | _ => false

def range? : Report → Option AddressRange
  | malformed range _ | unsupported range _ => some range
  | invariant _ _ => none

end Report

/-- What is told about a failure. Candidates without an order abort without a word. -/
def Failure.report? : Failure → Option Report
  | malformed range cause => some (.malformed range cause.text)
  | unsupported range cause => some (.unsupported range cause.text)
  | invariant pass violation => some (.invariant pass violation.text)
  | negativeExtent => none

def crossingFailure (graph : FlowGraph) (owner child : NodeId) : Failure :=
  .unsupported (graph.node owner).range
    (.crossing (graph.node child).kind.name (graph.node child).start (graph.node owner).kind.name)

def openFailure? (graph : FlowGraph) (owner : NodeId) : Option Failure :=
  (graph.leak? owner).map (crossingFailure graph owner)

end Structuring.Recovery
