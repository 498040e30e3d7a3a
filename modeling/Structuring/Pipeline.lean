import Structuring.Recovery.Block
import Structuring.Recovery.Conditional
import Structuring.Recovery.Fragment
import Structuring.Recovery.Loop.Build
import Structuring.Recovery.Switch.Dispatch
import Structuring.Recovery.Switch.Insert
import Structuring.Outline.Export
import Structuring.Text.LetterCase
import Structuring.Text.Split

/-! Passes run one after another. -/

namespace Structuring

open Bytecode Recovery FlowGraph Outline

structure Pass where
  name : String
  apply : Source → Recover Bool

namespace Pass

def blocks : Pass := ⟨"blocks", buildBlocks⟩

def fragments : Pass := ⟨"fragments", buildFragments⟩

def switchLocate : Pass := ⟨"switch-locate", locateSwitches⟩

def loops : Pass := ⟨"loops", buildLoops⟩

def branches : Pass := ⟨"branches", buildConditionals⟩

def switchInsert : Pass := ⟨"switch-insert", insertSwitches⟩

def staticInit : Pass := ⟨"static-init", buildStaticInits⟩

def standard : List Pass :=
  [blocks, fragments, switchLocate, loops, branches, switchInsert, staticInit]

def ofName? (name : String) : Option Pass := standard.find? fun pass => pass.name == name

end Pass

structure RunOptions where
  /-- Which entries a dump is for. -/
  filter : Option String := none
  /-- The pass to stop after. -/
  dumpAfter : Option String := none
  /-- Whether the edges are checked after every pass. -/
  verify : Bool := true
  deriving DecidableEq, Repr

def entryStem (name : List Char) : List Char :=
  match (Text.dropLead? "gml_".toList name).bind (Text.splitOnce? (· == '_')) with
  | some (_, stem) => stem
  | none => name

/-- Whether a filter selects an entry. Case does not matter. After `=` stands the whole name or
its stem; otherwise the filter names parts of it, divided by points or colons. -/
def filterSelects (filter name : List Char) : Bool :=
  let filter := Text.toLower filter
  let name := Text.toLower name
  match filter with
  | '=' :: whole => name == whole || entryStem name == whole
  | _ =>
    let parts := Text.splitAll (fun c => c == '.' || c == ':') filter
    (parts.1 :: parts.2).all fun part => part.isEmpty || Text.occursIn part name

namespace RunOptions

def selects (options : RunOptions) (name : String) : Bool :=
  match options.filter with
  | none => true
  | some filter => filterSelects filter.toList name.toList

def unknownPass? (options : RunOptions) : Option String :=
  options.dumpAfter.filter fun name => (Pass.ofName? name).isNone

end RunOptions

def unknownPassText (name : String) : String :=
  "unknown pass `" ++ name ++ "` (expected one of: "
    ++ String.intercalate ", " (Pass.standard.map (·.name)) ++ ")"

structure RunOutcome where
  stoppedEarly : Bool
  /-- The passes that changed something, in order. -/
  changed : List String
  deriving DecidableEq, Repr

/-- Apply a pass and check the graph. -/
def applyPass (source : Source) (verify : Bool) (pass : Pass) : Recover Bool := do
  let changed ← pass.apply source
  tell (.passed pass.name source.code.name changed)
  if verify then
    match (← getGraph).edgeMismatch? with
    | some mismatch => throw (.invariant pass.name (.edges mismatch))
    | none => pure ()
  return changed

/-- Apply passes until the one to stop after. A run to the end leaves no branch. -/
def runPasses (source : Source) (options : RunOptions) (changed : List String) :
    List Pass → Recover RunOutcome
  | [] => do
    match (← getGraph).remainingJump? with
    | some jump => throw (.invariant "final" (.jump jump))
    | none => return { stoppedEarly := false, changed }
  | pass :: rest => do
    let did ← applyPass source options.verify pass
    let changed := if did then changed ++ [pass.name] else changed
    if options.dumpAfter = some pass.name then return { stoppedEarly := true, changed }
    else runPasses source options changed rest

def run (source : Source) (options : RunOptions) (passes : List Pass) : Recover RunOutcome := do
  modifyClaims fun _ => {}
  runPasses source options [] passes

def structureEntry (source : Source) : EStateM.Result Failure Session RunOutcome :=
  (run source {} Pass.standard).run {}

def dumpText (source : Source) (pass : String) (context : Context) : String :=
  match export? source.code.symbols context with
  | some tree =>
    "=== after " ++ pass ++ ": " ++ source.code.name ++ " ===\n" ++ tree.text ++ "=== end ===\n\n"
  | none => ""

end Structuring
