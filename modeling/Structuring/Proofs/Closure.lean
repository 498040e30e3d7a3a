import Structuring.Proofs.Slots.Layout

/-! Closed graphs.

If no edge leads from one level to another once fragments are found, none does after any later pass.
-/

namespace Structuring

open Bytecode Recovery FlowGraph

/-- If every edge joins two nodes of one level once fragments have been found, it does so after every
later pass of the run that succeeds. -/
theorem closed_after_pass {name listing : String} {code : Code} {features : Features}
    {options : RunOptions} {stopped outcome : RunOutcome} {laid final : Session}
    (assembled : Assembly.assemble name listing = .ok code)
    (lays : (run ⟨code, features⟩ { options with dumpAfter := some Pass.fragments.name }
      Pass.standard).run {} = .ok stopped laid)
    (closed : laid.graph.Closed) (later : options.dumpAfter ≠ some Pass.blocks.name)
    (done : (run ⟨code, features⟩ options Pass.standard).run {} = .ok outcome final) :
    final.graph.Closed := by
  have ordered : InOrder (Source.mk code features).code.instructions :=
    Assembly.inOrder_of_assemble assembled
  exact (tidied_of_closed ordered later done lays closed).closed.levels

def switchInLoop : String :=
  "b [after]\n> inner\nexit.i\n:[after]\n:[head]\npush.v self.a\nbf [end]\npush.v self.b\ndup.v 0\n"
    ++ "pushi.e 1\ncmp.i.v EQ\nbt [one]\nb [out]\n:[one]\npush.v self.c\npopz.v\nb [out]\n:[out]\n"
    ++ "popz.v\nb [head]\n:[end]\nexit.i"

theorem closed_after_pass_switchInLoop :
    ∃ code stopped laid outcome final, Assembly.assemble "entry" switchInLoop = .ok code ∧
      (run ⟨code, .all⟩ { dumpAfter := some Pass.fragments.name } Pass.standard).run {} =
        .ok stopped laid ∧ laid.graph.Closed ∧
      (run ⟨code, .all⟩ { dumpAfter := some Pass.switchInsert.name } Pass.standard).run {} =
        .ok outcome final ∧
      final.loops.length = 1 ∧ final.switches.length = 1 ∧
      final.graph.Closed := by
  obtain ⟨code, stopped, laid, assembled, lays, closed⟩ :=
    exists_of_evaluates "entry" switchInLoop
      (fun code => (run ⟨code, .all⟩ { dumpAfter := some Pass.fragments.name } Pass.standard).run {})
      (fun _ _ laid => laid.graph.Closed) (by decide +kernel)
  obtain ⟨other, outcome, final, again, done, loops, switches⟩ :=
    exists_of_evaluates "entry" switchInLoop
      (fun code => (run ⟨code, .all⟩ { dumpAfter := some Pass.switchInsert.name } Pass.standard).run {})
      (fun _ _ final => final.loops.length = 1 ∧ final.switches.length = 1) (by decide +kernel)
  cases Except.ok.inj (again.symm.trans assembled)
  exact ⟨_, stopped, laid, outcome, final, assembled, lays, closed, done, loops, switches,
    closed_after_pass assembled lays closed (by simp [Pass.switchInsert, Pass.blocks]) done⟩

end Structuring
