import Structuring.Proofs.Home
import Structuring.Proofs.Located

/-! The passes of a run.

A run that succeeds goes through one session for each pass. What the steps of a pass are known to do is
collected here for these sessions: what the pass may edit, where blocks are at home, and which switches
are claimed.
-/

namespace Structuring

open Bytecode Recovery FlowGraph

variable {source : Source} {verify : Bool} {pass : Pass} {before after laid final : Session}
  {outcome : RunOutcome}

/-- A pass takes one session to another. -/
def Ran (source : Source) (verify : Bool) (pass : Pass) (before after : Session) : Prop :=
  ∃ did, (applyPass source verify pass).run before = .ok did after

theorem Ran.returns (ran : Ran source verify pass before after) (holds : Context → Claims → Prop)
    (returns : Returns (pass.apply source) before fun _ next => holds next.context next.claims) :
    holds after.context after.claims := by
  obtain ⟨did, done⟩ := ran
  exact (Reaches.applyPass holds returns (fun never => absurd trivial never) verify).run done

theorem Ran.revises {rights : Rights} (ran : Ran source verify pass before after)
    (sound : before.Sound) (holds : Context → Claims → Prop)
    (revises : Revises rights (pass.apply source) before fun _ next => holds next.context next.claims) :
    after.Sound ∧ Edits rights before after ∧ holds after.context after.claims := by
  obtain ⟨did, done⟩ := ran
  exact (Reaches.of_revises (.applyPass holds revises verify) sound).run done

/-! Blocks, fragments and located switches -/

theorem blocked_of_ran (ordered : InOrder source.code.instructions)
    (cuts : Ran source verify .blocks {} after) : after.context.Blocked source.code.slices := by
  obtain ⟨_, cuts⟩ := cuts
  exact ((returns_blocks ordered verify).run cuts).2.2.2.2

theorem opened_of_ran {blocks : Session} (ordered : InOrder source.code.instructions)
    (cuts : Ran source verify .blocks {} blocks) (founds : Ran source verify .fragments blocks laid) :
    laid.Opened source := by
  obtain ⟨_, cuts⟩ := cuts
  obtain ⟨_, founds⟩ := founds
  exact ((returns_layout ordered verify).run cuts).run founds

namespace Recovery.Session.Opened

variable {session : Session} (opened : session.Opened source)

include opened

theorem housed : session.Housed := by
  intro fragment block member
  refine ⟨(opened.sound.blocks block).mp ((opened.listed fragment).subset member), ?_⟩
  exact Home.here (opened.level fragment block member) (isFragment_of_mem_fragmentBlocks member)

theorem increasing (fragment : NodeId) :
    (fragmentBlocks session.graph fragment).Pairwise fun block other =>
      (session.graph.node block).start < (session.graph.node other).start :=
  List.Pairwise.sublist (opened.listed fragment) opened.cut.increasing

/-- Switches that are located change nothing of what loops are built on. -/
theorem looping (ordered : InOrder source.code.instructions) {located : Session}
    (same : located.context = session.context) : located.Looping source := by
  obtain ⟨context, claims, log⟩ := located
  subst same
  refine ⟨⟨opened.traced.code, fun id which isSentinel proper => ?_⟩, opened.nested,
    opened.cut.bare_dropLast opened.sound ordered, fun fragment block member =>
      .inl (opened.level fragment block member)⟩
  obtain ⟨fragment, block, jump, target, made, reason⟩ := opened.traced.sentinels id which isSentinel proper
  refine ⟨fragment, block, jump, target, made, .inl (reason.resolve_right ?_)⟩
  rintro ⟨_, location, member, _⟩
  rw [opened.unclaimed] at member
  cases member

end Recovery.Session.Opened

structure Recovery.Claims.LocatedIn (graph : FlowGraph) (claims : Claims) : Prop
    extends Claims.InSequence graph claims where
  located : ∀ location ∈ claims.switches, location.Located graph

theorem Recovery.Claims.LocatedIn.ordered {claims : Claims} (known : claims.LocatedIn laid.graph)
    (opened : laid.Opened source) : claims.Ordered laid.graph := by
  intro location member
  have located := known.located location member
  have before := List.Pairwise.sublist located.found.order (opened.increasing location.fragment)
  rw [located.start]
  exact Nat.le_of_lt ((List.pairwise_cons.mp before).1 _ (.head _))

theorem Recovery.Claims.Ordered.later {claims : Claims} {graph next : FlowGraph}
    (inRange : claims.Ordered graph) (bounds : ∀ id ∈ claims.nodes, id < graph.size)
    (grows : Grows graph next) : claims.Ordered next := by
  intro location member
  rw [(grows.nodes _ (bounds _ (Claims.jumpBlock_mem_nodes member))).start]
  exact inRange location member

theorem locatedIn_of_ran {located : Session} (opened : laid.Opened source)
    (locates : Ran source verify .switchLocate laid located) :
    located.Sound ∧ located.context = laid.context ∧ located.claims.LocatedIn laid.graph := by
  obtain ⟨sound, _, context, extended⟩ := locates.revises opened.sound
    (fun context claims => context = laid.context ∧ laid.claims.Extends laid.graph claims)
    (revises_locateSwitches trivial : Revises { Rights.none with claims := True } _ _ _)
  have sequence := locates.returns (fun _ claims => claims.InSequence laid.graph)
    (returns_locateSwitches_inSequence (by rw [opened.unclaimed]))
  refine ⟨sound, context, sequence, fun location member => ?_⟩
  rcases extended.switches location member with old | located
  · rw [opened.unclaimed] at old
    cases old
  · exact located

/-! Structures -/

theorem looped_of_ran (sound : before.Sound) (ran : Ran source verify .loops before after) :
    after.Sound ∧ Edits Rights.full.settled before after ∧ after.claims = before.claims := by
  apply ran.revises sound fun _ claims => claims = before.claims
  exact .imp (revises_buildLoops ⟨trivial, trivial⟩ id id fun _ _ _ => trivial)
    fun _ _ done => done.1

theorem looping_of_ran (sound : before.Sound) (tiled : before.Tiled source) (looping : before.Looping source)
    (ran : Ran source verify .loops before after) : after.Looping source := by
  obtain ⟨_, _, looping⟩ := ran.revises sound (fun context claims => Session.Looping source { context, claims })
    (.imp (revises_buildLoops ⟨trivial, trivial⟩ id id fun _ _ _ => trivial :
      Revises Rights.full.settled _ _ _) fun _ _ done => (done.2 tiled looping).of_same rfl rfl)
  exact looping.of_same rfl rfl

theorem branched_of_ran (sound : before.Sound) (ran : Ran source verify .branches before after) :
    after.Sound ∧ Edits Rights.full.settled before after ∧ after.claims = before.claims := by
  apply ran.revises sound fun _ claims => claims = before.claims
  exact .imp (revises_buildConditionals trivial fun _ _ _ => trivial) fun _ _ done => done.1

theorem traced_of_ran (sound : before.Sound) (ordered : before.claims.Ordered before.graph)
    (traced : Traced source before) (ran : Ran source verify .branches before after) : Traced source after := by
  obtain ⟨_, _, traced⟩ := ran.revises sound (fun context claims => Traced source { context, claims })
    (.imp (revises_buildConditionals trivial fun _ _ _ => trivial :
      Revises Rights.full.settled _ _ _) fun _ _ done => (done.2.2 ordered traced).of_same rfl rfl)
  exact traced.of_same rfl rfl

/-- The sessions of a run to its end. -/
structure Stages (source : Source) (blocks laid located looped branched inserted final : Session) : Prop where
  cuts : Ran source true .blocks {} blocks
  founds : Ran source true .fragments blocks laid
  locates : Ran source true .switchLocate laid located
  loops : Ran source true .loops located looped
  branches : Ran source true .branches looped branched
  inserts : Ran source true .switchInsert branched inserted
  initializes : Ran source true .staticInit inserted final

theorem ran_of_runPasses {passes : List Pass} {changed : List String}
    (done : (runPasses source {} changed (pass :: passes)).run before = .ok outcome final) :
    ∃ changed next, Ran source true pass before next ∧
      (runPasses source {} changed passes).run next = .ok outcome final := by
  obtain ⟨did, next, ran, done⟩ := run_bind_eq_ok.mp done
  exact ⟨_, next, ⟨did, ran⟩, done⟩

theorem stages_of_run (done : structureEntry source = .ok outcome final) :
    ∃ blocks laid located looped branched inserted,
      Stages source blocks laid located looped branched inserted final := by
  obtain ⟨_, start, same, done⟩ := run_bind_eq_ok.mp done
  cases same
  obtain ⟨_, blocks, cuts, done⟩ := ran_of_runPasses done
  obtain ⟨_, laid, founds, done⟩ := ran_of_runPasses done
  obtain ⟨_, located, locates, done⟩ := ran_of_runPasses done
  obtain ⟨_, looped, loops, done⟩ := ran_of_runPasses done
  obtain ⟨_, branched, branches, done⟩ := ran_of_runPasses done
  obtain ⟨_, inserted, inserts, done⟩ := ran_of_runPasses done
  obtain ⟨_, last, initializes, done⟩ := ran_of_runPasses done
  rw [runPasses, run_getGraph_bind] at done
  split at done
  · cases done
  · cases done
    exact ⟨blocks, laid, located, looped, branched, inserted, cuts, founds, locates, loops, branches,
      inserts, initializes⟩

/-- Every sentinel has a reason when branches have been built. -/
theorem Stages.traced {blocks located looped branched inserted : Session}
    (stages : Stages source blocks laid located looped branched inserted final)
    (ordered : InOrder source.code.instructions) : Traced source branched := by
  have opened := opened_of_ran ordered stages.cuts stages.founds
  obtain ⟨sound, context, known⟩ := locatedIn_of_ran opened stages.locates
  have looping := looping_of_ran sound (opened.tiled.of_same context) (opened.looping ordered context) stages.loops
  obtain ⟨loopedSound, edits, claims⟩ := looped_of_ran sound stages.loops
  refine traced_of_ran loopedSound ?_ looping.traced stages.branches
  rw [claims]
  have ordered := known.ordered opened
  rw [← context] at ordered
  exact ordered.later sound.claims edits.grows

end Structuring
