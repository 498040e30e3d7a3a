import Structuring.Bytecode.Instruction

/-! Kinds of nodes, and the slots in which a structure holds its parts. -/

namespace Structuring.FlowGraph

open Bytecode

/-- A node is known by its place in the order of creation. -/
abbrev NodeId := Nat

structure Block where
  /-- Place among the blocks of the entry, in address order. -/
  index : Nat
  instructions : List Instruction
  deriving DecidableEq, Repr

structure Fragment where
  name : String
  /-- First node of the body. -/
  entry : Option NodeId
  /-- Blocks of the body in address order, without those of functions nested in it. -/
  blocks : List NodeId
  deriving DecidableEq, Repr

inductive LoopShape where
  /-- `mustBeWhile` says that no part can be set apart as the step of a `for` loop. -/
  | whileLoop (mustBeWhile : Bool) (incrementor : Option NodeId)
  | doUntil
  | repeatLoop
  /-- The block that drops the environment is the one a `break` leaves through. -/
  | withLoop (breakBlock : Option NodeId)
  deriving DecidableEq, Repr

structure Loop where
  shape : LoopShape
  head : NodeId
  tail : NodeId
  /-- First node inside, if there is one. -/
  body : Option NodeId
  /-- An empty node for the point after the loop. -/
  after : NodeId
  deriving DecidableEq, Repr

inductive Logic where
  | and
  | or
  deriving DecidableEq, Repr

structure Chain where
  logic : Logic
  operands : List NodeId
  deriving DecidableEq, Repr

structure Conditional where
  condition : NodeId
  whenTrue : NodeId
  whenFalse : NodeId
  /-- Present if the source has an `else`, even an empty one. -/
  otherwise : Option NodeId
  deriving DecidableEq, Repr

structure Switch where
  /-- Computes the value and compares it. -/
  cases : NodeId
  body : Option NodeId
  /-- Labels that lead straight to the exit. -/
  endCases : Option NodeId
  deriving DecidableEq, Repr

inductive Sentinel where
  | empty
  | breaks
  | continues
  | returns
  deriving DecidableEq, Repr

inductive Kind where
  | block (parts : Block)
  | fragment (parts : Fragment)
  | loop (parts : Loop)
  | chain (parts : Chain)
  | conditional (parts : Conditional)
  | switch (parts : Switch)
  | caseJump
  | caseLabel (isDefault : Bool)
  | staticInit (head : NodeId)
  | sentinel (which : Sentinel)
  deriving DecidableEq, Repr

def LoopShape.name : LoopShape → String
  | whileLoop _ _ => "while"
  | doUntil => "do-until"
  | repeatLoop => "repeat"
  | withLoop _ => "with"

def Logic.name : Logic → String
  | and => "and"
  | or => "or"

def Sentinel.name : Sentinel → String
  | empty => "empty"
  | breaks => "break"
  | continues => "continue"
  | returns => "return"

namespace Kind

def name : Kind → String
  | block _ => "block"
  | fragment _ => "fragment"
  | loop parts => parts.shape.name
  | chain parts => parts.logic.name
  | conditional _ => "if"
  | switch _ => "switch"
  | caseJump => "case-jump"
  | caseLabel isDefault => if isDefault then "default" else "case"
  | staticInit _ => "static-init"
  | sentinel which => which.name

/-- Rename the nodes in the slots. The point after a loop keeps its node. -/
def mapSlots (rename : NodeId → NodeId) : Kind → Kind
  | fragment parts => fragment { parts with entry := parts.entry.map rename }
  | loop parts =>
    let shape :=
      match parts.shape with
      | .whileLoop mustBeWhile incrementor => .whileLoop mustBeWhile (incrementor.map rename)
      | .withLoop breakBlock => .withLoop (breakBlock.map rename)
      | shape => shape
    loop { parts with
      shape, head := rename parts.head, tail := rename parts.tail, body := parts.body.map rename }
  | chain parts => chain { parts with operands := parts.operands.map rename }
  | conditional parts =>
    conditional
      { condition := rename parts.condition
        whenTrue := rename parts.whenTrue
        whenFalse := rename parts.whenFalse
        otherwise := parts.otherwise.map rename }
  | switch parts =>
    switch
      { cases := rename parts.cases
        body := parts.body.map rename
        endCases := parts.endCases.map rename }
  | staticInit head => staticInit (rename head)
  | kind => kind

def replaceChild (old new : NodeId) (kind : Kind) : Kind :=
  kind.mapSlots fun id => if id = old then new else id

end Kind

end Structuring.FlowGraph
