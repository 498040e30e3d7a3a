import Structuring.Proofs.Passes.Layout
import Structuring.Proofs.Passes.Switch
import Structuring.Proofs.Returns

/-! Located switches.

Switches are located from the last start to the first, and each one has its own end. If one starts
before another of its function, some comparison of it comes before the other as well.
-/

namespace Structuring.Recovery

open Bytecode FlowGraph

variable {graph : FlowGraph} {session : Session} {source : Source} {claimed : List NodeId}

/-- Where a switch ends: at the first block from some address on that discards a value, is not the end
of another switch, and does not follow a repeat loop. -/
structure SwitchLocation.Ends (graph : FlowGraph) (location : SwitchLocation) : Prop where
  discards : discards (graph.node location.endBlock) = true
  split : ∃ earlier later, fragmentBlocks graph location.fragment = earlier ++ location.endBlock :: later ∧
    ∀ previous, earlier.getLast? = some previous → isRepeatTail (graph.node previous) = false

theorem split_of_findExit? {blocks : List NodeId} {furthest : Nat} {reached : Bool}
    {previous : Option NodeId} {block : NodeId} {known : List NodeId} (passed : List NodeId)
    (isKnown : known = passed ++ blocks) (isPrevious : passed.getLast? = previous)
    (found : findExit? graph claimed furthest reached previous blocks = some block) :
    discards (graph.node block) = true ∧ block ∉ claimed ∧ ∃ earlier later,
      known = earlier ++ block :: later ∧
        ∀ last, earlier.getLast? = some last → isRepeatTail (graph.node last) = false := by
  fun_induction findExit? graph claimed furthest reached previous blocks generalizing passed with
  | case1 => cases found
  | case2 reached previous other rest reached' afterRepeat holds =>
    cases found
    simp only [Bool.and_eq_true, Bool.not_eq_true', List.contains_eq_mem, decide_eq_false_iff_not] at holds
    refine ⟨holds.1.1.2, holds.1.2, passed, rest, isKnown, fun last isLast => ?_⟩
    rw [isPrevious] at isLast
    simpa [afterRepeat, isLast] using holds.2
  | case3 reached previous other rest reached' afterRepeat _ ih =>
    apply ih (passed ++ [other]) _ _ found
    · simpa using isKnown
    · simp

theorem ends_of_locate {dispatch : Dispatch} {location : SwitchLocation}
    (located : dispatch.locate graph claimed = .ok location) :
    location.start = (graph.node dispatch.casesBlock).start ∧ location.endBlock ∉ claimed ∧
      location.Ends graph := by
  unfold Dispatch.locate at located
  dsimp only at located
  split at located
  · cases located
  · next endBlock isEnd =>
    split at located
    · cases located
    · cases located
      obtain ⟨discards, fresh, split⟩ := split_of_findExit? [] rfl rfl isEnd
      exact ⟨rfl, fresh, discards, split⟩

/-- A switch that starts before another of its function has a comparison before it. -/
theorem SwitchLocation.Located.separate {first second : SwitchLocation} (one : first.Located graph)
    (two : second.Located graph) (together : first.fragment = second.fragment)
    (increasing : (fragmentBlocks graph first.fragment).Pairwise fun block other =>
      (graph.node block).start < (graph.node other).start)
    (before : first.start < second.start) :
    ∃ compare ∈ first.compareBlocks, compare ∈ fragmentBlocks graph first.fragment ∧
      (graph.node compare).start < second.start := by
  obtain ⟨_, rest, isBlocks, compares⟩ := one.found.compares
  obtain ⟨_, _, _, others⟩ := two.found.compares
  obtain ⟨earlier, between, later, compare, _, rfl, isCompares, isLast, -, plain⟩ := compares.split
  have listed : compare ∈ first.dispatch.compareBlocks := isCompares ▸ .head _
  have duplicated := others.duplicated
  have member : second.casesBlock ∈ fragmentBlocks graph first.fragment :=
    together ▸ two.found.order.subset (.head _)
  rw [one.start, two.start] at before
  rw [isBlocks, List.append_assoc] at increasing member
  obtain ⟨increasing, _, follows⟩ := List.pairwise_append.mp increasing
  obtain ⟨_, _, precedes⟩ := List.pairwise_append.mp increasing
  rcases List.mem_append.mp member with listed | isLater
  · -- Up to the comparison only the first block duplicates a value.
    rcases List.mem_append.mp listed with isEarlier | isBetween
    · exact absurd (precedes _ isEarlier _ (.head _)) (Nat.lt_asymm before)
    · rcases List.mem_cons.mp isBetween with same | isBetween
      · exact absurd before (same ▸ Nat.lt_irrefl _)
      · exact absurd (plain _ isBetween) (by simp [duplicated])
  · refine ⟨compare, listed, one.found.mem listed, two.start ▸ ?_⟩
    exact follows _ (List.mem_append_right _ (List.mem_of_getLast? isLast)) _ isLater

structure AddedFrom (graph : FlowGraph) (claimed : List NodeId) (dispatches : List Dispatch)
    (added : List SwitchLocation) : Prop where
  starts : added.map SwitchLocation.start =
    dispatches.map fun dispatch => (graph.node dispatch.casesBlock).start
  distinct : (added.map SwitchLocation.endBlock).Nodup
  fresh : ∀ location ∈ added, location.endBlock ∉ claimed
  ends : ∀ location ∈ added, location.Ends graph

theorem returns_claimDispatches (dispatches : List Dispatch) :
    Returns (claimDispatches source claimed dispatches) session fun _ next =>
      ∃ added, next.claims.switches = session.claims.switches ++ added ∧
        AddedFrom session.graph claimed dispatches added := by
  induction dispatches generalizing session claimed with
  | nil =>
    refine .pure ⟨[], by simp, rfl, .nil, ?_, ?_⟩
    · exact List.forall_mem_nil _
    · exact List.forall_mem_nil _
  | cons dispatch rest ih =>
    refine .getGraph_bind ?_
    split
    · exact .throw trivial
    · next location isLocation =>
      obtain ⟨start, fresh, ends⟩ := ends_of_locate isLocation
      refine .tell_bind fun told context claims => .bind .modifyClaims fun _ next isNext => ?_
      refine .imp ih fun _ final ⟨added, isAdded, from_rest⟩ => ⟨location :: added, ?_, ?_⟩
      · simp [isAdded, isNext, switches_claimSwitch, claims]
      · have same : next.graph = session.graph := by rw [isNext, context]
        rw [same] at from_rest
        constructor
        · rw [List.map_cons, List.map_cons, start, from_rest.starts]
        · rw [List.map_cons, List.nodup_cons]
          refine ⟨fun again => ?_, from_rest.distinct⟩
          obtain ⟨other, member, same⟩ := List.mem_map.mp again
          exact from_rest.fresh other member (same ▸ .head _)
        · intro other member
          rcases List.mem_cons.mp member with rfl | later
          · exact fresh
          · exact fun listed => from_rest.fresh other later (.tail _ listed)
        · exact List.forall_mem_cons.mpr ⟨ends, from_rest.ends⟩

structure Claims.InSequence (graph : FlowGraph) (claims : Claims) : Prop where
  starts : claims.switches.Pairwise fun first second => second.start ≤ first.start
  distinct : (claims.switches.map SwitchLocation.endBlock).Nodup
  ends : ∀ location ∈ claims.switches, location.Ends graph

theorem returns_locateSwitches_inSequence (unclaimed : session.claims.switches = []) :
    Returns (locateSwitches source) session fun _ next => next.claims.InSequence session.graph := by
  refine .getContext_bind ?_
  split
  · exact .throw trivial
  · next dispatches found =>
    refine .bind (returns_claimDispatches dispatches) ?_
    rintro _ next ⟨added, isAdded, from_all⟩
    refine .getClaims_bind (.pure ?_)
    rw [unclaimed, List.nil_append] at isAdded
    have sorted : dispatches.Pairwise fun first second =>
        (session.graph.node second.casesBlock).start ≤ (session.graph.node first.casesBlock).start := by
      unfold findDispatches at found
      cases isGroups : session.fragments.mapM fun fragment =>
          dispatchesFrom session.graph fragment [] (fragmentBlocks session.graph fragment) with
      | error failure => simp [isGroups, bind, Except.bind] at found
      | ok groups =>
        simp only [isGroups, bind, Except.bind, pure, Except.pure, Except.ok.injEq] at found
        subst found
        refine List.Pairwise.imp (fun {first second} le => of_decide_eq_true le)
          (pairwise_stableSort ?_ ?_ groups.flatten)
        · simp only [decide_eq_true_eq]
          exact fun _ _ _ one two => Nat.le_trans two one
        · simp only [decide_eq_false_iff_not, decide_eq_true_eq]
          exact fun _ _ later => Nat.le_of_lt (Nat.lt_of_not_le later)
    constructor
    · have starts : (next.claims.switches.map SwitchLocation.start).Pairwise fun one two => two ≤ one := by
        rw [isAdded, from_all.starts, List.pairwise_map]
        exact sorted
      exact List.pairwise_map.mp starts
    · exact isAdded ▸ from_all.distinct
    · exact isAdded ▸ from_all.ends

end Structuring.Recovery
