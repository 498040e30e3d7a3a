import Structuring.Number.Integer
import Structuring.Text.Visible

/-! Text between double quotes, as instructions show string operands. -/

namespace Structuring.Text

/-- One character inside quotes. A character without a visible form is shown by its code
point. -/
def quoteChar (c : Char) : List Char :=
  if c = '"' then ['\\', '"']
  else if c = '\\' then ['\\', '\\']
  else if c = '\n' then ['\\', 'n']
  else if c = '\t' then ['\\', 't']
  else if c = '\r' then ['\\', 'r']
  else if c.toNat = 0 then ['\\', '0']
  else if isVisible c then [c]
  else "\\u\x7b".toList ++ (Number.hexDigits c.toNat).toList ++ "\x7d".toList

def quote (text : String) : String :=
  "\"" ++ String.ofList (text.toList.flatMap quoteChar) ++ "\""

end Structuring.Text
