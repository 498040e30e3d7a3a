import Mathlib.Data.List.Nodup
import Mathlib.Data.List.Perm.Subperm
import Structuring.Proofs.Revision

/-! Nodes inside nodes.

A structure that takes nodes in comes between them and their level, so what was on a level, or
inside something on it, stays so. The way up from a node to a level it is inside of visits no node
twice; so to climb there takes no more steps than the graph has nodes.
-/

namespace Structuring

open Bytecode Recovery FlowGraph

namespace FlowGraph

variable {rights : Rights} {graph next : FlowGraph} {level : Option NodeId} {id : NodeId}

/-- A node is on a level or inside a node that is. -/
inductive Below (graph : FlowGraph) (level : Option NodeId) : NodeId → Prop
  | here {id : NodeId} (onLevel : (graph.node id).parent = level) : Below graph level id
  | up {id parent : NodeId} (inside : (graph.node id).parent = some parent)
      (above : Below graph level parent) : Below graph level id

/-! Climbing to a level -/

inductive Path (graph : FlowGraph) (level : Option NodeId) : List NodeId → Prop
  | last {id : NodeId} (onLevel : (graph.node id).parent = level) : Path graph level [id]
  | cons {id parent : NodeId} {rest : List NodeId} (inside : (graph.node id).parent = some parent)
      (above : Path graph level (parent :: rest)) : Path graph level (id :: parent :: rest)

theorem Path.suffix {path : List NodeId} (leads : Path graph level path) (member : id ∈ path) :
    ∃ rest, Path graph level (id :: rest) ∧ id :: rest <:+ path := by
  induction leads with
  | last onLevel =>
    obtain rfl := List.mem_singleton.mp member
    exact ⟨[], .last onLevel, List.suffix_refl _⟩
  | cons inside above ih =>
    rcases List.mem_cons.mp member with rfl | later
    · exact ⟨_, .cons inside above, List.suffix_refl _⟩
    · obtain ⟨rest, leads, suffix⟩ := ih later
      exact ⟨rest, leads, suffix.trans (List.suffix_cons _ _)⟩

theorem Below.path (below : graph.Below level id) :
    ∃ rest, Path graph level (id :: rest) ∧ (id :: rest).Nodup := by
  induction below with
  | here onLevel => exact ⟨[], .last onLevel, List.nodup_singleton _⟩
  | @up id parent inside _ ih =>
    obtain ⟨rest, leads, distinct⟩ := ih
    -- A way that comes back to where it starts is left out up to there.
    by_cases again : id ∈ parent :: rest
    · obtain ⟨shorter, leads, suffix⟩ := leads.suffix again
      exact ⟨shorter, leads, distinct.sublist suffix.sublist⟩
    · exact ⟨parent :: rest, .cons inside leads, List.nodup_cons.mpr ⟨again, distinct⟩⟩

theorem Path.lt_size {path : List NodeId} (leads : Path graph level path)
    (bound : ∀ first, path.head? = some first → first < graph.size)
    (parents : ∀ id parent, (graph.node id).parent = some parent → parent < graph.size) :
    ∀ id ∈ path, id < graph.size := by
  induction leads with
  | last onLevel =>
    intro id member
    exact bound id (congrArg some (List.mem_singleton.mp member)).symm
  | cons inside above ih =>
    intro id member
    rcases List.mem_cons.mp member with rfl | later
    · exact bound id rfl
    · refine ih (fun first isFirst => ?_) id later
      obtain rfl := Option.some.inj isFirst
      exact parents _ _ inside

theorem Path.climbWithin {path : List NodeId} (leads : Path graph level (id :: path)) {fuel : Nat}
    (enough : path.length < fuel) : ∃ top, graph.climbWithin level fuel id = some top := by
  induction path generalizing id fuel with
  | nil =>
    cases leads with
    | last onLevel =>
      cases fuel with
      | zero => exact absurd enough (Nat.lt_irrefl 0)
      | succ fuel => exact ⟨id, if_pos onLevel⟩
  | cons parent rest ih =>
    cases leads with
    | cons inside above =>
      cases fuel with
      | zero => exact absurd enough (Nat.not_lt_zero _)
      | succ fuel =>
        by_cases onLevel : (graph.node id).parent = level
        · exact ⟨id, if_pos onLevel⟩
        · obtain ⟨top, found⟩ := ih above (Nat.lt_of_succ_lt_succ enough)
          refine ⟨top, ?_⟩
          rw [FlowGraph.climbWithin, if_neg onLevel, inside]
          exact found

theorem Below.climb (below : graph.Below level id) (sound : graph.Sound) (bound : id < graph.size) :
    ∃ top, graph.climb id level = some top := by
  obtain ⟨rest, leads, distinct⟩ := below.path
  have inside := leads.lt_size (fun _ isFirst => Option.some.inj isFirst ▸ bound)
    fun id parent isParent => (sound.parents id parent isParent).lt
  have short : (id :: rest).length ≤ (List.range graph.size).length :=
    (List.subperm_of_subset distinct fun id member => List.mem_range.mpr (inside id member)).length_le
  rw [List.length_range] at short
  exact leads.climbWithin short

theorem parent_climbWithin {top : NodeId} (fuel : Nat)
    (found : graph.climbWithin level fuel id = some top) : (graph.node top).parent = level := by
  induction fuel generalizing id with
  | zero => exact absurd found (by simp [climbWithin])
  | succ fuel ih =>
    unfold climbWithin at found
    split at found
    · next onLevel => exact Option.some.inj found ▸ onLevel
    · split at found
      · exact ih found
      · cases found

theorem parent_climb {top : NodeId} (found : graph.climb id level = some top) :
    (graph.node top).parent = level := parent_climbWithin graph.size found

/-! Edits -/

theorem GraphEdit.below (edit : GraphEdit rights graph next) (sound : graph.Sound)
    (settled : ¬rights.owns) (bound : id < graph.size) (proper : (graph.node id).kind ≠ .sentinel .empty)
    (below : graph.Below level id) : next.Below level id := by
  induction below with
  | here onLevel =>
    rcases edit.parent_cases bound proper fun free => absurd free settled with
      same | ⟨_, owner, inside, above, _⟩
    · exact .here (same.trans onLevel)
    · exact .up inside (.here (above.trans onLevel))
  | @up id parent inside _ ih =>
    have owner := sound.parents id parent inside
    have above := ih owner.lt owner.ne_empty
    rcases edit.parent_cases bound proper fun free => absurd free settled with
      same | ⟨_, owner, taken, outer, _⟩
    · exact .up (same.trans inside) above
    · exact .up taken (.up (outer.trans inside) above)

end FlowGraph

namespace Recovery

variable {rights : Rights} {session next : Session} {level : Option NodeId} {id : NodeId}

/-- What is on a level or inside a node there stays so, but for empty sentinels. -/
theorem Edits.below_of_proper (edits : Edits rights session next) (settled : ¬rights.owns)
    (whole : ¬rights.cuts) (sound : session.Sound) (bound : id < session.graph.size)
    (proper : (session.graph.node id).kind ≠ .sentinel .empty)
    (below : session.graph.Below level id) : next.graph.Below level id := by
  induction edits with
  | refl => exact below
  | tail before edit ih =>
    cases edit with
    | graph graph edit =>
      exact edit.below (Edits.sound before sound).graph settled (Edits.lt before bound)
        (Edits.proper before bound proper) ih
    | block parts start stop free => exact absurd free whole
    | record context graph _ _ _ _ => rw [graph]; exact ih
    | fragments _ _ _ _ _ _ | claims _ _ _ | tell _ => exact ih

theorem Edits.below (edits : Edits rights session next) (settled : ¬rights.owns) (whole : ¬rights.cuts)
    (sound : session.Sound) (isBlock : (session.graph.node id).kind.isBlock = true)
    (below : session.graph.Below level id) : next.graph.Below level id := by
  exact edits.below_of_proper settled whole sound (lt_size_of_isBlock isBlock)
    (Kind.ne_empty_of_isBlock isBlock) below

def Session.Nested (session : Session) : Prop :=
  ∀ fragment, ∀ block ∈ fragmentBlocks session.graph fragment,
    (session.graph.node block).kind.isBlock = true ∧ session.graph.Below (some fragment) block

theorem Session.Nested.later (nested : session.Nested) (edits : Edits rights session next)
    (settled : ¬rights.owns) (whole : ¬rights.cuts) (sound : session.Sound) : next.Nested := by
  intro fragment block member
  rw [edits.fragmentBlocks_eq settled] at member
  obtain ⟨isBlock, below⟩ := nested fragment block member
  exact ⟨edits.isBlock isBlock, edits.below settled whole sound isBlock below⟩

end Recovery

end Structuring
