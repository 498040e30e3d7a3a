import Mathlib.Data.List.Pairwise
import Structuring.Proofs.Isolation

/-! Functions as a laminar family.

Once functions are found, any two of them are apart or one lies in the other, and they divide the blocks:
a block belongs to the smallest function around it. The scan that finds them never ends inside of one.
-/

namespace Structuring

open Bytecode Recovery FlowGraph

variable {source : Source} {previous : Option NodeId}

namespace Recovery

/-! Reasons to fail -/

abbrev FailsAs {α : Type} (allowed : Failure → Prop) (step : Recover α) (session : Session) : Prop :=
  Ends step session (fun _ _ => True) fun failure _ => allowed failure

variable {α β : Type} {allowed : Failure → Prop} {session : Session}

theorem Ends.and {step : Recover α} {first : α → Session → Prop} {second : α → Session → Prop}
    {failed : Failure → Session → Prop} (one : Ends step session first failed) (two : Returns step session second) :
    Ends step session (fun value next => first value next ∧ second value next) failed := by
  have also := two.ends
  unfold Ends at *
  cases result : step.run session with
  | ok value next =>
    rw [result] at one also
    exact ⟨one, also⟩
  | error failure next => rwa [result] at one

theorem FailsAs.bind {step : Recover α} {rest : α → Recover β} (first : FailsAs allowed step session)
    (second : ∀ value next, FailsAs allowed (rest value) next) : FailsAs allowed (step >>= rest) session :=
  ends_bind.mpr (first.imp (fun value next _ => second value next) fun _ _ => id)

theorem FailsAs.forM {items : List α} {f : α → Recover Unit} (each : ∀ item next, FailsAs allowed (f item) next) :
    FailsAs allowed (items.forM f) session := by
  induction items generalizing session with
  | nil => trivial
  | cons item rest ih => exact .bind (each item session) fun _ _ => ih

theorem FailsAs.of_succeeds {step : Recover α} {post : α → Session → Prop} (succeeds : Succeeds step session post) :
    FailsAs allowed step session := succeeds.ends.imp (fun _ _ _ => trivial) fun _ _ => False.elim

def Failure.Terminates (failure : Failure) : Prop := ∀ range, failure ≠ .malformed range .openFragment

theorem terminates_fragmentsAt {stack : List NodeId} {current block : NodeId} :
    FailsAs Failure.Terminates (fragmentsAt source previous stack current block) session := by
  refine .bind trivial fun graph next => ?_
  extract_lets start skip
  split
  · trivial
  · split
    · cases skip with
      | none => exact fun range => nofun
      | some found =>
        exact .bind (.of_succeeds reaches_openFragment) fun _ _ => trivial
    · exact .bind trivial fun _ _ => trivial

theorem terminates_assignBlocks {root : NodeId} {stack blocks : List NodeId} :
    FailsAs Failure.Terminates (assignBlocks source root previous stack blocks) session := by
  induction blocks generalizing session previous stack with
  | nil => trivial
  | cons block rest ih =>
    exact .bind trivial fun _ _ => .bind terminates_fragmentsAt fun _ _ => .bind trivial fun _ _ => ih

theorem terminates_confineBlock {fragment block : NodeId} {isRoot : Bool} :
    FailsAs Failure.Terminates (confineBlock fragment isRoot block) session := by
  refine .bind trivial fun graph next => ?_
  extract_lets node leaving leavesTo cut
  have cuts : FailsAs Failure.Terminates (cut ()) next := by
    dsimp only [cut]
    split
    · trivial
    · split
      · exact fun range => nofun
      · trivial
  split
  · trivial
  · split
    · exact fun range => nofun
    · exact cuts

theorem terminates_buildFragments (blocked : session.context.Blocked source.code.slices)
    (agree : session.graph.Mutual) : FailsAs Failure.Terminates (buildFragments source) session := by
  refine ends_buildFragments (by rw [blocked.whole]) ?_
  let listed : Session := ⟨session.context.rooted source, session.claims, session.log⟩
  have context : listed.context = session.context.rooted source := rfl
  refine (Ends.and terminates_assignBlocks (returns_assigned blocked agree context)).imp ?_ fun _ _ => id
  rintro stack assigned ⟨-, -, -, layered⟩
  refine ⟨?_, FailsAs.forM fun _ _ => .bind trivial fun _ _ => .forM fun _ _ => terminates_confineBlock⟩
  -- The last block is at the end of the code, and what is open there is the code itself.
  rintro inner outer rest rfl
  obtain ⟨block, member, atEnd⟩ := layered.reaches
  cases layered.ended block member atEnd

end Recovery

/-- Functions that are apart or in each other, each inside of the smallest one around it, and the blocks
divided among them by address. -/
structure Recovery.Context.Laminar (code : Code) (context : Context) : Prop where
  rooted : ∃ root nested, context.root = some root ∧ context.fragments = root :: nested
  rising : context.fragments.Pairwise fun first second =>
    (context.graph.node first).start < (context.graph.node second).start
  apart : ∀ first ∈ context.fragments, ∀ second ∈ context.fragments,
    (context.graph.node first).stop ≤ (context.graph.node second).start ∨
      (context.graph.node second).stop ≤ (context.graph.node first).start ∨
      context.graph.LiesIn first second ∨ context.graph.LiesIn second first
  smallest : ∀ fragment ∈ context.fragments, context.root ≠ some fragment →
    ∃ outer ∈ context.fragments, (context.graph.node fragment).parent = some outer ∧ outer ≠ fragment ∧
      context.graph.LiesIn fragment outer ∧ ∀ other ∈ context.fragments, other ≠ fragment →
        context.graph.LiesIn fragment other → context.graph.LiesIn outer other
  owned : ∀ block ∈ context.blocks, ∃ owner ∈ context.fragments,
    block ∈ fragmentBlocks context.graph owner ∧ (context.graph.node block).parent = some owner ∧
      ∀ other, block ∈ fragmentBlocks context.graph other → other = owner
  sorted : ∀ fragment, (fragmentBlocks context.graph fragment).Pairwise fun first second =>
    (context.graph.node first).start < (context.graph.node second).start
  inmost : ∀ owner, ∀ block ∈ fragmentBlocks context.graph owner,
    (context.graph.node block).start < code.length →
      context.graph.Spans owner (context.graph.node block).start ∧
        ∀ other ∈ context.fragments, context.graph.Spans other (context.graph.node block).start →
          context.graph.LiesIn owner other

theorem Recovery.Layers.laminar {code : Code} {context : Context} (layers : Layers code context context.blocks)
    (owned : ∀ block ∈ context.blocks, ∃ fragment ∈ context.fragments, block ∈ fragmentBlocks context.graph fragment)
    (placed : ∀ fragment, ∀ block ∈ fragmentBlocks context.graph fragment,
      block ∈ context.blocks ∧ (context.graph.node block).parent = some fragment) : context.Laminar code := by
  have rising := layers.layers.imp And.left
  have distinct := (List.pairwise_map.mpr rising).imp Nat.ne_of_lt
  constructor
  case rooted =>
    obtain ⟨root, nested, isRoot, isList, _⟩ := layers.rooted
    exact ⟨root, nested, isRoot, isList⟩
  case rising => exact rising
  case apart =>
    have symmetric : Std.Symm fun first second => (context.graph.node first).stop ≤ (context.graph.node second).start ∨
        (context.graph.node second).stop ≤ (context.graph.node first).start ∨
        context.graph.LiesIn first second ∨ context.graph.LiesIn second first :=
      ⟨fun first second => by tauto⟩
    refine List.Pairwise.forall_of_forall (fun id _ => .inr (.inr (.inl (.refl _ id)))) ?_
    refine layers.layers.imp fun {first second} apart => ?_
    rcases apart.2 with before | inside
    · exact .inl before
    · exact .inr (.inr (.inr ⟨Nat.le_of_lt apart.1, inside⟩))
  case smallest =>
    intro fragment member inner
    obtain ⟨extent, outer, isOuter, inside, starts, stops, smallest⟩ := layers.nested fragment member inner
    refine ⟨outer, isOuter, inside, fun same => ?_, ⟨Nat.le_of_lt starts, stops⟩, fun other isOther apart lies => ?_⟩
    · rw [same] at starts
      exact Nat.lt_irrefl _ starts
    · refine smallest other isOther (Nat.lt_of_le_of_ne lies.1 fun same => apart ?_)
        (Nat.lt_of_lt_of_le extent lies.2)
      exact List.inj_on_of_nodup_map distinct isOther member same
  case owned =>
    intro block member
    obtain ⟨owner, isOwner, listed⟩ := owned block member
    refine ⟨owner, isOwner, listed, (placed owner block listed).2, fun other among => ?_⟩
    exact Option.some.inj ((placed other block among).2.symm.trans (placed owner block listed).2)
  case sorted => exact layers.sorted
  case inmost =>
    intro owner block listed before
    obtain ⟨member, level⟩ := placed owner block listed
    exact layers.homes block member before owner level

/-- Functions are found up to their ends, and what is found is a laminar family. -/
theorem laminar_of_assemble {name listing : String} {code : Code} (features : Features) {changed : Bool}
    {blocks : Session} (assembled : Assembly.assemble name listing = .ok code)
    (cuts : (buildBlocks ⟨code, features⟩).run {} = .ok changed blocks) :
    (∀ range failed, (buildFragments ⟨code, features⟩).run blocks ≠
      .error (.malformed range .openFragment) failed) ∧
    ∀ changed laid, (buildFragments ⟨code, features⟩).run blocks = .ok changed laid →
      laid.context.Laminar code := by
  have rising : Rising (Source.mk code features).code.instructions :=
    (Assembly.inOrder_of_assemble assembled).rising
  have cut : Returns (buildBlocks ⟨code, features⟩) {} _ :=
    reaches_buildBlocks rising rfl fun never => absurd trivial never
  have edits : Revises cuttingRights (buildBlocks ⟨code, features⟩) {} _ := revises_buildBlocks trivial
  obtain ⟨-, -, blocked⟩ := cut.run cuts
  obtain ⟨sound, -⟩ := (Reaches.of_revises edits Session.sound_empty).run cuts
  have agree := sound.graph.edges
  constructor
  · intro range failed fails
    have ends := terminates_buildFragments blocked agree
    unfold FailsAs Ends at ends
    rw [fails] at ends
    exact ends range rfl
  · intro changed laid found
    obtain ⟨assigned, last, stack, assigning, layered, context, confining⟩ :=
      (returns_buildFragments blocked agree).run found
    have layers := layered.toLayers.later assigning confining.keeps confining.members
    rw [context]
    refine layers.laminar ?_ ?_
    · intro block member
      obtain ⟨fragment, isFragment, among⟩ := assigning.owned block member
      exact ⟨fragment, isFragment, confining.members fragment ▸ among⟩
    · intro fragment block among
      obtain ⟨member, level⟩ := assigning.placed fragment block (confining.members fragment ▸ among)
      exact ⟨member, (confining.keeps.parent block (assigning.block_lt member)).trans level⟩

theorem laminar_of_assemble_sharedEnd :
    ∃ code cut blocks found laid, Assembly.assemble "entry" sharedEnd = .ok code ∧
      (buildBlocks ⟨code, .all⟩).run {} = .ok cut blocks ∧
      (buildFragments ⟨code, .all⟩).run blocks = .ok found laid ∧
      laid.fragments = [5, 6, 7] ∧ laid.context.Laminar code := by
  obtain ⟨code, found, laid, assembled, run, fragments⟩ := exists_of_evaluates "entry" sharedEnd
    (fun code => (buildBlocks ⟨code, .all⟩ >>= fun _ => buildFragments ⟨code, .all⟩).run {})
    (fun _ _ laid => laid.fragments = [5, 6, 7]) (by decide +kernel)
  obtain ⟨cut, blocks, cuts, finds⟩ := run_bind_eq_ok.mp run
  exact ⟨code, cut, blocks, found, laid, assembled, cuts, finds, fragments,
    (laminar_of_assemble .all assembled cuts).2 found laid finds⟩

end Structuring
