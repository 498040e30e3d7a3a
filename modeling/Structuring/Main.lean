import Structuring.CommandLine.Outcome

/-! The command. -/

namespace Structuring.CommandLine

def errorNumber (code : UInt32) : Nat :=
  if code.toNat < 0x80000000 then code.toNat else 0x100000000 - code.toNat

def readFault : IO.Error → ReadFault
  | .noFileOrDirectory _ code details | .inappropriateType _ code details
  | .permissionDenied _ code details | .invalidArgument _ code details
  | .resourceExhausted _ code details | .interrupted _ code details
  | .otherError code details | .hardwareFault code details =>
    .ofNumber details (errorNumber code)
  | error => .other error.toString 0

def readContent (path : String) : IO (Except ReadFault String) := do
  try
    let bytes ← IO.FS.readBinFile path
    match String.fromUTF8? bytes with
    | some text => return .ok text
    | none => return .error .notUnicode
  catch error => return .error (readFault error)

def printOutcome (outcome : Outcome) : IO Unit := do
  for line in outcome.log do
    IO.eprintln ("[" ++ line.1.name ++ "] " ++ line.2)
  IO.eprint outcome.errors
  IO.print outcome.output

end Structuring.CommandLine

open Structuring.CommandLine in
def main (words : List String) : IO UInt32 := do
  let content ←
    match Invocation.ofWords? words with
    | some invocation => readContent invocation.input
    | none => pure (.ok "")
  let outcome := performWords words fun _ => content
  printOutcome outcome
  return outcome.exitCode
