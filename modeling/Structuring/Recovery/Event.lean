import Structuring.Bytecode.AddressRange
import Structuring.FlowGraph.Kind

/-! What the log tells about a run. -/

namespace Structuring.Recovery

open Bytecode FlowGraph Number

inductive Level where
  | trace
  | debug
  | warn
  deriving DecidableEq, Repr

def Level.name : Level → String
  | trace => "TRACE"
  | debug => "DEBUG"
  | warn => "WARN"

/-- Something worth telling; `entry` is the name of the code entry. -/
inductive Event where
  | blocks (entry : String) (count : Nat)
  | fragment (name : String) (range : AddressRange)
  | inlineChild (entry : String) (name : String)
  | dispatch (entry : String) (comparisons : Nat) (range : AddressRange)
  | loop (entry : String) (kind : String) (range : AddressRange)
  | jump (source target : Nat) (sentinel : Sentinel)
  | chain (entry : String) (kind : String) (operands : Nat) (range : AddressRange)
  | conditional (entry : String) (hasElse : Bool) (range : AddressRange)
  | switch (entry : String) (range : AddressRange) (destinations : Nat)
  | staticInit (entry : String) (range : AddressRange) (head : String)
  | passed (pass : String) (entry : String) (changed : Bool)
  deriving DecidableEq, Repr

def sentinelTitle : Sentinel → String
  | .empty => "Empty"
  | .breaks => "Break"
  | .continues => "Continue"
  | .returns => "Return"

namespace Event

def level : Event → Level
  | blocks _ _ | jump _ _ _ => .trace
  | inlineChild _ _ => .warn
  | _ => .debug

def text : Event → String
  | blocks entry count => entry ++ ": " ++ decimal count ++ " blocks"
  | fragment name range => "fragment `" ++ name ++ "` at " ++ range.text
  | inlineChild entry name => entry ++ ": `" ++ name ++ "` treated as inline code"
  | dispatch entry comparisons range =>
    entry ++ ": switch with " ++ decimal comparisons ++ " comparison(s) at " ++ range.text
  | loop entry kind range => entry ++ ": " ++ kind ++ " loop at " ++ range.text
  | jump source target sentinel =>
    hex source ++ ": b " ++ hex target ++ " -> " ++ sentinelTitle sentinel
  | chain entry kind operands range =>
    entry ++ ": " ++ kind ++ " chain of " ++ decimal operands ++ " operand(s) at " ++ range.text
  | conditional entry hasElse range =>
    entry ++ ": if" ++ (if hasElse then "/else" else "") ++ " at " ++ range.text
  | switch entry range destinations =>
    entry ++ ": switch at " ++ range.text ++ " with " ++ decimal destinations ++ " destination(s)"
  | staticInit entry range head =>
    entry ++ ": static initializers at " ++ range.text ++ " (head " ++ head ++ ")"
  | passed pass entry changed =>
    "[" ++ pass ++ "] " ++ entry ++ ": " ++ (if changed then "changed" else "no change")

end Event

end Structuring.Recovery
