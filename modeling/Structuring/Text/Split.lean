/-! Cutting text at lines, at separators, and at fixed first and last characters. -/

namespace Structuring.Text

/-- The lines of a text. A line ends at a line feed, and one carriage return before the
line feed belongs to the ending. The last line needs no ending. -/
def lines : List Char → List (List Char)
  | [] => []
  | '\r' :: '\n' :: rest => [] :: lines rest
  | '\n' :: rest => [] :: lines rest
  | c :: rest =>
    match lines rest with
    | [] => [[c]]
    | line :: more => (c :: line) :: more

def splitOnce? (separates : Char → Bool) : List Char → Option (List Char × List Char)
  | [] => none
  | c :: rest =>
    if separates c then some ([], rest)
    else (splitOnce? separates rest).map fun parts => (c :: parts.1, parts.2)

/-- The pieces between the characters that satisfy `separates`; there is always a first one. -/
def splitAll (separates : Char → Bool) : List Char → List Char × List (List Char)
  | [] => ([], [])
  | c :: rest =>
    let pieces := splitAll separates rest
    if separates c then ([], pieces.1 :: pieces.2) else (c :: pieces.1, pieces.2)

def dropFirst? (first : Char) : List Char → Option (List Char)
  | [] => none
  | c :: rest => if c = first then some rest else none

def dropLast? (last : Char) : List Char → Option (List Char)
  | [] => none
  | [c] => if c = last then some [] else none
  | c :: rest => (dropLast? last rest).map (c :: ·)

def dropLead? (lead : List Char) (text : List Char) : Option (List Char) :=
  if lead.isPrefixOf text then some (text.drop lead.length) else none

def occursIn (part : List Char) : List Char → Bool
  | [] => part.isEmpty
  | c :: rest => part.isPrefixOf (c :: rest) || occursIn part rest

end Structuring.Text
