import Structuring.Proofs.Partition
import Structuring.Proofs.Stages

/-! Dispatches and their exits.

The blocks of a function come in the order of their addresses. So the comparisons of a switch do, each
leads beyond the jump behind the last one, and the exit lies no earlier than any of their targets.
-/

namespace Structuring.Recovery

open Bytecode FlowGraph

variable {graph : FlowGraph} {session : Session} {source : Source}

/-- A switch whose parts are where a dispatch has them. -/
structure SwitchLocation.WellFormed (graph : FlowGraph) (location : SwitchLocation) : Prop where
  inside : ∀ block ∈ location.casesBlock :: location.jumpBlock :: location.compareBlocks,
    block ∈ fragmentBlocks graph location.fragment
  rising : location.compareBlocks.Pairwise fun block other => (graph.node block).start < (graph.node other).start
  jumps : ∃ earlier last later, location.compareBlocks.getLast? = some last ∧
    fragmentBlocks graph location.fragment = earlier ++ last :: location.jumpBlock :: later
  start : location.start = (graph.node location.casesBlock).start
  first : ∀ compare ∈ location.compareBlocks.head?, location.start ≤ (graph.node compare).start
  targets : ∀ compare ∈ location.compareBlocks, ∃ target, caseTarget? (graph.node compare) = some target ∧
    (graph.node location.jumpBlock).start < target ∧ target ≤ location.stop
  stop : location.stop = (graph.node location.endBlock).start
  discards : discards (graph.node location.endBlock) = true

theorem SwitchLocation.Located.wellFormed {location : SwitchLocation} (located : location.Located graph)
    (increasing : (fragmentBlocks graph location.fragment).Pairwise fun block other =>
      (graph.node block).start < (graph.node other).start)
    (discards : Recovery.discards (graph.node location.endBlock) = true) : location.WellFormed graph := by
  obtain ⟨before, later, isBlocks, compares⟩ := located.found.compares
  have isLast := compares.last
  obtain ⟨earlier, within, rfl, sublist⟩ := compares.sublist
  rw [isBlocks] at increasing
  have ordered := (List.pairwise_append.mp (List.pairwise_append.mp increasing).1).2.1
  refine ⟨fun block member => ?_, ordered.sublist sublist, ?_, located.start, fun compare isFirst => ?_,
    fun compare member => ?_, located.stop, discards⟩
  · rcases List.mem_cons.mp member with rfl | member
    · exact located.found.order.subset (.head _)
    rcases List.mem_cons.mp member with rfl | member
    · exact located.found.order.subset (.tail _ (.head _))
    · exact located.found.mem member
  · obtain ⟨front, last, isFront⟩ : ∃ front last, earlier ++ location.casesBlock :: within = front ++ [last] :=
      ⟨_, _, (List.dropLast_append_getLast (by simp)).symm⟩
    rw [isFront] at isLast isBlocks
    exact ⟨front, last, later, by simpa using isLast, by simpa using isBlocks⟩
  · rw [located.start]
    rcases List.mem_cons.mp (sublist.subset (List.mem_of_mem_head? isFirst)) with rfl | behind
    · exact Nat.le_refl _
    · exact Nat.le_of_lt ((List.pairwise_cons.mp ordered).1 _ behind)
  · obtain ⟨target, isTarget, beyond⟩ := located.found.exists_target member
    refine ⟨target, isTarget, beyond, located.reach target (List.mem_append_left _ ?_)⟩
    exact List.mem_filterMap.mpr ⟨compare, member, isTarget⟩

theorem le_start_of_findExit? {claimed blocks : List NodeId} {furthest : Nat} {reached : Bool}
    {previous : Option NodeId} {block : NodeId}
    (increasing : blocks.Pairwise fun block other => (graph.node block).start < (graph.node other).start)
    (beyond : reached = true → ∀ block ∈ blocks, furthest ≤ (graph.node block).start)
    (found : findExit? graph claimed furthest reached previous blocks = some block) :
    furthest ≤ (graph.node block).start := by
  fun_induction findExit? graph claimed furthest reached previous blocks with
  | case1 => cases found
  | case2 reached previous other rest reached' _ holds =>
    cases found
    have isReached : reached' = true := by simp_all
    rcases Bool.or_eq_true_iff.mp isReached with before | here
    · exact beyond before _ (.head _)
    · exact Nat.le_of_eq (beq_iff_eq.mp here).symm
  | case3 reached previous other rest reached' _ _ ih =>
    obtain ⟨first, increasing⟩ := List.pairwise_cons.mp increasing
    refine ih increasing (fun isReached block member => ?_) found
    rcases Bool.or_eq_true_iff.mp isReached with before | here
    · exact beyond before _ (.tail _ member)
    · exact beq_iff_eq.mp here ▸ Nat.le_of_lt (first block member)

def Failure.KeepsCases (failure : Failure) : Prop :=
  ∀ range target, failure ≠ .malformed range (.caseBeyondExit target)

theorem yields_locate_keepsCases (claimed : List NodeId) {dispatch : Dispatch}
    (increasing : (fragmentBlocks graph dispatch.fragment).Pairwise fun block other =>
      (graph.node block).start < (graph.node other).start) :
    Yields (dispatch.locate graph claimed) (fun _ => True) Failure.KeepsCases := by
  unfold Dispatch.locate
  dsimp only
  split
  · exact fun range target => nofun
  · next endBlock isEnd =>
    split
    · next target isBeyond =>
      have reaches := le_start_of_findExit? increasing (absurd · Bool.false_ne_true) isEnd
      have within := Nat.le_trans (List.le_max?_getD_of_mem (List.mem_of_find?_eq_some isBeyond)) reaches
      have beyond := List.find?_some isBeyond
      exact absurd within (Nat.not_le_of_lt (of_decide_eq_true beyond))
    · trivial

theorem keepsCases_claimDispatches (dispatches : List Dispatch) {claimed : List NodeId}
    (isGraph : session.graph = graph)
    (increasing : ∀ fragment, (fragmentBlocks graph fragment).Pairwise fun block other =>
      (graph.node block).start < (graph.node other).start) :
    FailsAs Failure.KeepsCases (claimDispatches source claimed dispatches) session := by
  induction dispatches generalizing session claimed with
  | nil => trivial
  | cons dispatch rest ih =>
    have located := yields_locate_keepsCases claimed (increasing dispatch.fragment)
    rw [← isGraph] at located
    unfold Yields at located
    unfold FailsAs Ends claimDispatches
    rw [run_getGraph_bind]
    split at located
    · next location isLocation =>
      rw [isLocation]
      exact ih isGraph
    · next failure isFailure =>
      rw [isFailure]
      exact located

theorem keepsCases_locateSwitches (increasing : ∀ fragment, (fragmentBlocks session.graph fragment).Pairwise
      fun block other => (session.graph.node block).start < (session.graph.node other).start) :
    FailsAs Failure.KeepsCases (locateSwitches source) session := by
  have found := yields_findDispatches session.context
  unfold Yields at found
  unfold FailsAs Ends locateSwitches
  rw [run_getContext_bind]
  split at found
  · next dispatches isFound =>
    rw [isFound]
    exact FailsAs.bind (keepsCases_claimDispatches dispatches rfl increasing) fun _ _ => trivial
  · next failure isFailure =>
    obtain ⟨_, rfl⟩ := found
    rw [isFailure]
    exact fun range target => nofun

end Structuring.Recovery

namespace Structuring

open Bytecode Recovery FlowGraph

/-- Once the fragments of assembled code have been found, switches are located in well-formed places,
from the last start to the first, each with an exit of its own. If that fails, it is not because a case
lies past the exit. -/
theorem locates_wellFormed {name listing : String} {code : Code} {features : Features} {verify : Bool}
    {blocks laid : Session} (assembled : Assembly.assemble name listing = .ok code)
    (cuts : Ran ⟨code, features⟩ verify .blocks {} blocks)
    (founds : Ran ⟨code, features⟩ verify .fragments blocks laid) :
    Ends (Pass.switchLocate.apply ⟨code, features⟩) laid
      (fun _ located => located.context = laid.context ∧
        (∀ location ∈ located.claims.switches, location.WellFormed laid.graph) ∧
        (located.claims.switches.map SwitchLocation.endBlock).Nodup ∧
        located.claims.switches.Pairwise fun first second => second.start ≤ first.start)
      (fun failure _ => ∀ range target, failure ≠ .malformed range (.caseBeyondExit target)) := by
  have opened := opened_of_ran (Assembly.inOrder_of_assemble assembled) cuts founds
  have locates : Revises { Rights.none with claims := True } (locateSwitches ⟨code, features⟩) laid _ :=
    revises_locateSwitches trivial
  have ends := (Ends.and (keepsCases_locateSwitches opened.increasing) (.of_revises locates opened.sound)).and
    (returns_locateSwitches_inSequence (by rw [opened.unclaimed]))
  apply ends.imp _ fun _ _ => id
  rintro _ located ⟨⟨-, -, -, context, extended⟩, sequence⟩
  refine ⟨context, fun location member => ?_, sequence.distinct, sequence.starts⟩
  rcases extended.switches location member with old | isLocated
  · rw [opened.unclaimed] at old
    cases old
  · exact isLocated.wellFormed (opened.increasing _) (sequence.ends location member).discards

def nestedSwitches : String :=
  "push.v self.a\ndup.v 0\npushi.e 1\ncmp.i.v EQ\nbt [one]\nb [out]\n:[one]\npush.v self.b\ndup.v 0\n"
    ++ "pushi.e 2\ncmp.i.v EQ\nbt [two]\nb [in]\n:[two]\nb [in]\n:[in]\npopz.v\nb [out]\n:[out]\npopz.v\nexit.i"

theorem locates_wellFormed_nestedSwitches :
    ∃ code blocks laid, Assembly.assemble "entry" nestedSwitches = .ok code ∧
      Ran ⟨code, .all⟩ true .blocks {} blocks ∧ Ran ⟨code, .all⟩ true .fragments blocks laid ∧
      ∃ did located, (Pass.switchLocate.apply ⟨code, .all⟩).run laid = .ok did located ∧
        located.claims.switches.map (·.range) = [⟨28, 60⟩, ⟨0, 68⟩] ∧
        ∀ location ∈ located.claims.switches, location.WellFormed laid.graph := by
  obtain ⟨code, did, located, assembled, done, switches⟩ := exists_of_evaluates "entry" nestedSwitches
    (fun code => (applyPass ⟨code, .all⟩ true .blocks >>= fun _ => applyPass ⟨code, .all⟩ true .fragments >>=
      fun _ => Pass.switchLocate.apply ⟨code, .all⟩).run {})
    (fun _ _ located => located.claims.switches.map (·.range) = [⟨28, 60⟩, ⟨0, 68⟩]) (by decide +kernel)
  obtain ⟨_, blocks, cuts, done⟩ := run_bind_eq_ok.mp done
  obtain ⟨_, laid, founds, done⟩ := run_bind_eq_ok.mp done
  have ends := locates_wellFormed assembled ⟨_, cuts⟩ ⟨_, founds⟩
  unfold Ends at ends
  rw [done] at ends
  exact ⟨code, blocks, laid, assembled, ⟨_, cuts⟩, ⟨_, founds⟩, did, located, done, switches, ends.2.1⟩

end Structuring
