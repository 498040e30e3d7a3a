import Structuring.Bytecode.AddressRange
import Structuring.FlowGraph.Kind

/-! Trees of nodes, and their text.

A structure holds its parts in named slots; a part is a list of nodes that run one after
another.
-/

namespace Structuring.Outline

open Bytecode FlowGraph

structure NodeLabel where
  id : NodeId
  kind : String
  range : AddressRange
  name : Option String := none
  instructions : List String := []
  /-- Keys in increasing order. -/
  attributes : List (String × String) := []
  deriving DecidableEq, Repr

inductive Tree where
  | node (label : NodeLabel) (slots : List (String × List Tree))

namespace Tree

def label : Tree → NodeLabel
  | node label _ => label

def slots : Tree → List (String × List Tree)
  | node _ slots => slots

def slot? (tree : Tree) (name : String) : Option (List Tree) := tree.slots.lookup name

def follow? (tree : Tree) : List (String × Nat) → Option Tree
  | [] => some tree
  | (name, index) :: rest =>
    match (tree.slot? name).bind (·[index]?) with
    | some next => next.follow? rest
    | none => none

end Tree

def indent (depth : Nat) : String := String.ofList (List.replicate (2 * depth) ' ')

def NodeLabel.lines (depth : Nat) (label : NodeLabel) : List String :=
  let name := (label.name.map (" " ++ ·)).getD ""
  let attributes := label.attributes.map fun entry => " " ++ entry.1 ++ "=" ++ entry.2
  (indent depth ++ label.kind ++ " [" ++ label.range.text ++ "]" ++ name ++ String.join attributes)
    :: label.instructions.map fun text => indent (depth + 1) ++ "| " ++ text

mutual

def Tree.lines (depth : Nat) : Tree → List String
  | .node label slots => label.lines depth ++ slotLines depth slots

def slotLines (depth : Nat) : List (String × List Tree) → List String
  | [] => []
  | (name, nodes) :: rest =>
    (indent (depth + 1) ++ name ++ ":") :: (treeLines (depth + 2) nodes ++ slotLines depth rest)

def treeLines (depth : Nat) : List Tree → List String
  | [] => []
  | tree :: rest => tree.lines depth ++ treeLines depth rest

end

def Tree.text (tree : Tree) : String := String.join ((tree.lines 0).map (· ++ "\n"))

end Structuring.Outline
