import Structuring.Assembly.Layout
import Structuring.Pipeline
import Structuring.Proofs.Passes.Conditional
import Structuring.Proofs.Passes.Layout
import Structuring.Proofs.Passes.Looping
import Structuring.Proofs.Passes.StaticInit
import Structuring.Proofs.Passes.Switch
import Structuring.Proofs.Returns

/-! Passes in any order.

Every pass revises a sound session, so whatever passes are applied, and whether they fail or not,
the session stays sound. The check of the edges after a pass never finds anything.
-/

namespace Structuring

open Bytecode Recovery FlowGraph

variable {α β : Type} {source : Source} {session : Session} {pass : Pass} {rights : Rights}
  {post : α → Session → Prop} {passes : List Pass}

def leaves (step : Recover α) (session : Session) : Session :=
  match step.run session with
  | .ok _ next => next
  | .error _ next => next

/-- The session after passes, each applied to what the ones before left behind. -/
def afterPasses (source : Source) (passes : List Pass) : Session :=
  passes.foldl (fun session pass => leaves (pass.apply source) session) {}

theorem Recovery.Revises.sound_leaves {step : Recover α} (revises : Revises rights step session post)
    (sound : session.Sound) : (leaves step session).Sound := by
  have ends := revises.ends sound
  unfold Ends at ends
  unfold leaves
  split
  · next isResult =>
    rw [isResult] at ends
    exact ends.1.sound sound
  · next isResult =>
    rw [isResult] at ends
    exact ends.1.sound sound

/-- Runs that begin alike with a revision agree if what follows agrees on sound sessions. -/
theorem Recovery.Revises.run_bind_congr {step first : Recover α}
    {rest other : α → Recover β} (revises : Revises rights step session post)
    (sound : session.Sound) (begins : step.run session = first.run session)
    (same : ∀ value next, next.Sound → (rest value).run next = (other value).run next) :
    (step >>= rest).run session = (first >>= other).run session := by
  have ends := revises.ends sound
  unfold Ends at ends
  change EStateM.bind step rest session = EStateM.bind first other session
  unfold EStateM.bind
  rw [EStateM.run, EStateM.run] at begins
  rw [← begins]
  cases result : step session with
  | ok value next =>
    rw [EStateM.run, result] at ends
    exact same value next (ends.1.sound sound)
  | error failure next => rfl

/-- Every pass keeps to edits, and fails only for a reason in the code entry. -/
theorem revises_pass (standard : pass ∈ Pass.standard) :
    Revises .full (pass.apply source) session fun _ _ => True := by
  have within := Rights.full.settled_within
  simp only [Pass.standard, List.mem_cons, List.not_mem_nil, or_false] at standard
  rcases standard with rfl | rfl | rfl | rfl | rfl | rfl | rfl
  · exact .any (revises_buildBlocks trivial)
  · exact .any (.mono fragmentRights.within_full revises_buildFragments)
  · exact .any (revises_locateSwitches trivial)
  · exact .any (.mono within (revises_buildLoops ⟨trivial, trivial⟩ id id fun _ _ _ => trivial))
  · exact .any (revises_buildConditionals trivial fun _ _ _ => trivial)
  · exact .any (revises_insertSwitches trivial trivial)
  · exact .any (revises_buildStaticInits trivial)

theorem sound_afterPasses (standard : ∀ pass ∈ passes, pass ∈ Pass.standard) :
    (afterPasses source passes).Sound := by
  refine List.foldlRecOn (motive := Session.Sound) passes _ Session.sound_empty ?_
  exact fun session sound pass member => (revises_pass (standard pass member)).sound_leaves sound

theorem Recovery.Revises.applyPass (holds : Context → Claims → Prop)
    (revises : Revises rights (pass.apply source) session fun _ next =>
      holds next.context next.claims) (verify : Bool) :
    Revises rights (Structuring.applyPass source verify pass) session fun _ next =>
      holds next.context next.claims := by
  refine .bind revises fun changed next _ _ known => ?_
  refine .bind (.tell _) fun _ told sound _ same => ?_
  rw [← same.1, ← same.2] at known
  extract_lets finish
  split
  · refine .getGraph_bind ?_
    rw [sound.graph.edges.edgeMismatch?_eq_none]
    exact .pure known
  · exact .pure known

/-- A pass that is applied does what it does on its own, and the check does not fail. -/
theorem Recovery.Reaches.applyPass {mayFail : Prop} (holds : Context → Claims → Prop)
    (reaches : Reaches (fun _ => mayFail) (pass.apply source) session fun _ next =>
      holds next.context next.claims)
    (agree : ¬mayFail → ∀ context claims, holds context claims → context.graph.Mutual) (verify : Bool) :
    Reaches (fun _ => mayFail) (Structuring.applyPass source verify pass) session fun _ next =>
      holds next.context next.claims := by
  refine .bind reaches fun changed next known => .tell_bind fun told context claims => ?_
  rw [← context, ← claims] at known
  extract_lets finish
  split
  · refine .getGraph_bind ?_
    split
    · next mismatch found =>
      refine .throw_bind (Classical.byContradiction fun never => ?_)
      rw [(agree never _ _ known).edgeMismatch?_eq_none] at found
      cases found
    · exact .pure known
  · exact .pure known

theorem run_getGraph_bind (rest : FlowGraph → Recover α) (session : Session) :
    (getGraph >>= rest).run session = (rest session.graph).run session := rfl

theorem run_getContext_bind (rest : Context → Recover α) (session : Session) :
    (getContext >>= rest).run session = (rest session.context).run session := rfl

theorem run_applyPass (standard : pass ∈ Pass.standard) (sound : session.Sound) :
    (applyPass source true pass).run session = (applyPass source false pass).run session := by
  refine (revises_pass standard).run_bind_congr sound rfl fun changed next nextSound => ?_
  have tells : Revises .full (tell (.passed pass.name source.code.name changed)) next _ := .tell _
  refine tells.run_bind_congr nextSound rfl fun _ told toldSound => ?_
  simp only [↓reduceIte, Bool.false_eq_true, run_getGraph_bind]
  rw [toldSound.graph.edges.edgeMismatch?_eq_none]

theorem run_runPasses (options : RunOptions) (changed : List String)
    (standard : ∀ pass ∈ passes, pass ∈ Pass.standard) (sound : session.Sound) :
    (runPasses source { options with verify := true } changed passes).run session =
      (runPasses source { options with verify := false } changed passes).run session := by
  induction passes generalizing session changed with
  | nil => rfl
  | cons pass rest ih =>
    have isPass := standard pass (.head _)
    have applies : Revises .full (applyPass source true pass) session fun _ _ => True :=
      .applyPass (fun _ _ => True) (revises_pass isPass) true
    refine applies.run_bind_congr sound (run_applyPass isPass sound) ?_
    intro did next nextSound
    dsimp only
    split
    · rfl
    · exact ih _ (fun pass member => standard pass (.tail _ member)) nextSound

theorem revises_clearClaims (session : Session) :
    Revises .full (modifyClaims fun _ => {}) session fun _ next => next = { session with claims := {} } :=
  .modifyClaims trivial fun _ member => absurd member List.not_mem_nil

theorem run_verify (options : RunOptions)
    (standard : ∀ pass ∈ passes, pass ∈ Pass.standard) (sound : session.Sound) :
    (run source { options with verify := true } passes).run session =
      (run source { options with verify := false } passes).run session :=
  (revises_clearClaims session).run_bind_congr sound rfl fun _ _ => run_runPasses options [] standard

/-- However passes follow each other, the two records of the edges between any two nodes agree. So
the check of the edges finds nothing, and a run does the same with it as without. -/
theorem mutual_afterPasses (source : Source) (passes : List Pass)
    (standard : ∀ pass ∈ passes, pass ∈ Pass.standard) :
    (∀ first second,
      ((afterPasses source passes).graph.node first).successors.count second =
        ((afterPasses source passes).graph.node second).predecessors.count first) ∧
    (afterPasses source passes).graph.edgeMismatch? = none ∧
    ∀ (options : RunOptions) (more : List Pass), (∀ pass ∈ more, pass ∈ Pass.standard) →
      (run source { options with verify := true } more).run (afterPasses source passes) =
        (run source { options with verify := false } more).run (afterPasses source passes) := by
  have sound : (afterPasses source passes).Sound := sound_afterPasses standard
  refine ⟨sound.graph.edges, sound.graph.edges.edgeMismatch?_eq_none, fun options more each => ?_⟩
  exact run_verify options each sound

def evaluates (name listing : String) (run : Code → EStateM.Result Failure Session α)
    (holds : Code → α → Session → Bool) : Bool :=
  match Assembly.assemble name listing with
  | .error _ => false
  | .ok code =>
    match run code with
    | .error _ _ => false
    | .ok value final => holds code value final

theorem exists_of_evaluates (name listing : String) (run : Code → EStateM.Result Failure Session α)
    (holds : Code → α → Session → Prop) [∀ code value final, Decidable (holds code value final)]
    (evaluated : evaluates name listing run (fun code value final => holds code value final) = true) :
    ∃ code value final, Assembly.assemble name listing = .ok code ∧ run code = .ok value final ∧
      holds code value final := by
  unfold evaluates at evaluated
  split at evaluated
  · exact absurd evaluated Bool.false_ne_true
  · next code assembled =>
    split at evaluated
    · exact absurd evaluated Bool.false_ne_true
    · next value final done => exact ⟨code, value, final, assembled, done, of_decide_eq_true evaluated⟩

def enteredLoop : Source where
  code :=
    { name := "entered_loop"
      instructions :=
        [⟨0, .bt, .double, .double, .branch 8⟩, ⟨4, .pushi, .int16, .double, .int16 1⟩,
          ⟨8, .pushi, .int16, .double, .int16 2⟩, ⟨12, .b, .double, .double, .branch 4⟩,
          ⟨16, .exit, .int32, .double, .none⟩]
      length := 20, children := [], symbols := {} }
  features := .none

theorem mutual_afterPasses_enteredLoop :
    (∀ pass ∈ [Pass.blocks, .fragments, .loops, .loops], pass ∈ Pass.standard) ∧
    (match (Pass.loops.apply enteredLoop).run
        (afterPasses enteredLoop [Pass.blocks, .fragments]) with
      | .ok _ _ => false
      | .error _ next => next.graph.size == 8) = true ∧
    ∀ first second,
      ((afterPasses enteredLoop [.blocks, .fragments, .loops, .loops]).graph.node
          first).successors.count second =
        ((afterPasses enteredLoop [.blocks, .fragments, .loops, .loops]).graph.node
          second).predecessors.count first := by
  have standard : ∀ pass ∈ [Pass.blocks, .fragments, .loops, .loops], pass ∈ Pass.standard := by
    simp [Pass.standard]
  exact ⟨standard, by decide +kernel, (mutual_afterPasses enteredLoop _ standard).1⟩

end Structuring
