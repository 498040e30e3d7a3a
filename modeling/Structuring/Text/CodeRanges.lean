/-! Sets of characters given by stretches of code points. -/

namespace Structuring.Text

abbrev CodeRanges := List (Nat × Nat)

def CodeRanges.contains (ranges : CodeRanges) (c : Char) : Bool :=
  ranges.any fun range => range.1 ≤ c.toNat && c.toNat ≤ range.2

/-- The lengths of the stretches outside and inside a set, in turn, from the first code point on. -/
abbrev CodeRuns := List Nat

def CodeRuns.covers : CodeRuns → Nat → Bool
  | outside :: inside :: rest, offset =>
    outside ≤ offset && (offset < outside + inside || covers rest (offset - outside - inside))
  | _, _ => false

def CodeRuns.contains (runs : CodeRuns) (c : Char) : Bool := runs.covers c.toNat

end Structuring.Text
