import Structuring.Outline.Tree

/-! JSON text of trees, with an indentation of two blanks. -/

namespace Structuring.Outline

open Number

inductive Json where
  | number (value : Nat)
  | string (value : String)
  | array (items : List Json)
  | object (fields : List (String × Json))

def fourHexDigits (value : Nat) : List Char :=
  let digits := Nat.toDigits 16 value
  List.replicate (4 - digits.length) '0' ++ digits

def jsonChar (c : Char) : List Char :=
  if c = '"' then ['\\', '"']
  else if c = '\\' then ['\\', '\\']
  else if c = '\n' then ['\\', 'n']
  else if c = '\r' then ['\\', 'r']
  else if c = '\t' then ['\\', 't']
  else if c.toNat = 8 then ['\\', 'b']
  else if c.toNat = 12 then ['\\', 'f']
  else if c.toNat < 32 then '\\' :: 'u' :: fourHexDigits c.toNat
  else [c]

def jsonString (text : String) : String :=
  "\"" ++ String.ofList (text.toList.flatMap jsonChar) ++ "\""

def bracketItems (opening closing : String) (depth : Nat) (items : List String) : String :=
  if items.isEmpty then opening ++ closing
  else
    opening ++ "\n" ++ String.intercalate ",\n" (items.map (indent (depth + 1) ++ ·)) ++ "\n"
      ++ indent depth ++ closing

mutual

def Json.pretty (depth : Nat) : Json → String
  | .number value => decimal value
  | .string value => jsonString value
  | .array items => bracketItems "[" "]" depth (prettyItems (depth + 1) items)
  | .object fields => bracketItems "\x7b" "\x7d" depth (prettyFields (depth + 1) fields)

def prettyItems (depth : Nat) : List Json → List String
  | [] => []
  | item :: rest => item.pretty depth :: prettyItems depth rest

def prettyFields (depth : Nat) : List (String × Json) → List String
  | [] => []
  | (name, value) :: rest =>
    (jsonString name ++ ": " ++ value.pretty depth) :: prettyFields depth rest

end

/-- The fields of a node without its parts; empty ones are left out. -/
def NodeLabel.fields (label : NodeLabel) : List (String × Json) :=
  let attributes := label.attributes.map fun entry => (entry.1, Json.string entry.2)
  [("kind", .string label.kind), ("start", .number label.range.start),
   ("end", .number label.range.stop)]
    ++ (label.name.map fun name => ("name", Json.string name)).toList
    ++ (if label.instructions.isEmpty then []
        else [("instructions", .array (label.instructions.map .string))])
    ++ (if attributes.isEmpty then [] else [("attributes", .object attributes)])

mutual

def Tree.toJson : Tree → Json
  | .node label slots =>
    .object (label.fields
      ++ (if slots.isEmpty then [] else [("slots", .array (slotsToJson slots))]))

def slotsToJson : List (String × List Tree) → List Json
  | [] => []
  | (name, nodes) :: rest =>
    .object [("name", .string name), ("nodes", .array (treesToJson nodes))] :: slotsToJson rest

def treesToJson : List Tree → List Json
  | [] => []
  | tree :: rest => tree.toJson :: treesToJson rest

end

end Structuring.Outline
