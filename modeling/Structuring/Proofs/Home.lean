import Structuring.Proofs.Levels
import Structuring.Proofs.WholeRun

/-! The function that a node is in.

On the way up from a node, the first fragment is its home. Structures that take nodes in are no
fragments, so a node is at home where it was. The home of a block is the fragment that lists it.
-/

namespace Structuring

open Bytecode Recovery FlowGraph

namespace FlowGraph

variable {rights : Rights} {graph next : FlowGraph} {id other fragment : NodeId}

inductive Home (graph : FlowGraph) (fragment : NodeId) : NodeId → Prop
  | here {id : NodeId} (inside : (graph.node id).parent = some fragment)
      (isFragment : ∃ parts, (graph.node fragment).kind = .fragment parts) : Home graph fragment id
  | up {id parent : NodeId} (inside : (graph.node id).parent = some parent)
      (encloser : graph.Encloser parent) (above : Home graph fragment parent) : Home graph fragment id

namespace Home

theorem unique {another : NodeId} (at_home : graph.Home fragment id) (too : graph.Home another other)
    (same : (graph.node id).parent = (graph.node other).parent) : fragment = another := by
  induction at_home generalizing other with
  | here inside isFragment =>
    rw [inside] at same
    cases too with
    | here outside _ => exact Option.some.inj (same.trans outside)
    | up outside encloser _ =>
      obtain rfl := Option.some.inj (same.trans outside)
      exact absurd isFragment encloser.not_fragment
  | up inside encloser _ ih =>
    rw [inside] at same
    cases too with
    | here outside isFragment =>
      obtain rfl := Option.some.inj (same.trans outside)
      exact absurd isFragment encloser.not_fragment
    | up outside _ above =>
      obtain rfl := Option.some.inj (same.trans outside)
      exact ih above rfl

/-- What is directly inside a structure is at home where the structure is. -/
theorem of_inside (at_home : graph.Home fragment id) {parent : NodeId}
    (inside : (graph.node id).parent = some parent) (encloser : graph.Encloser parent) :
    graph.Home fragment parent := by
  cases at_home with
  | here outside isFragment =>
    obtain rfl := Option.some.inj (inside.symm.trans outside)
    exact absurd isFragment encloser.not_fragment
  | up outside _ above =>
    obtain rfl := Option.some.inj (inside.symm.trans outside)
    exact above

end Home

theorem Grows.isFragment (grows : Grows graph next)
    (isFragment : ∃ parts, (graph.node id).kind = .fragment parts) :
    ∃ parts, (next.node id).kind = .fragment parts := by
  obtain ⟨parts, isKind⟩ := isFragment
  have owner : graph.Owner id := .of_kind isKind rfl
  exact (grows.nodes id owner.lt).kind.fragment_iff.mpr ⟨parts, isKind⟩

theorem GraphEdit.home (edit : GraphEdit rights graph next) (settled : ¬rights.owns)
    (bound : id < graph.size) (proper : (graph.node id).kind ≠ .sentinel .empty) (at_home : graph.Home fragment id) :
    next.Home fragment id := by
  have grows := edit.maintains.grows
  induction at_home with
  | here inside isFragment =>
    rcases edit.parent_cases bound proper fun free => absurd free settled with
      same | ⟨_, owner, taken, above, encloser, _⟩
    · exact .here (same.trans inside) (grows.isFragment isFragment)
    · exact .up taken (grows.encloser encloser) (.here (above.trans inside) (grows.isFragment isFragment))
  | @up id parent inside encloser _ ih =>
    have above := ih encloser.owner.lt encloser.owner.ne_empty
    rcases edit.parent_cases bound proper fun free => absurd free settled with
      same | ⟨_, owner, taken, outer, between, _⟩
    · exact .up (same.trans inside) (grows.encloser encloser) above
    · exact .up taken (grows.encloser between) (.up (outer.trans inside) (grows.encloser encloser) above)

end FlowGraph

namespace Recovery

variable {rights : Rights} {session next : Session} {fragment id : NodeId}

theorem Edits.home (edits : Edits rights session next) (settled : ¬rights.owns) (whole : ¬rights.cuts)
    (bound : id < session.graph.size) (proper : (session.graph.node id).kind ≠ .sentinel .empty)
    (at_home : session.graph.Home fragment id) : next.graph.Home fragment id := by
  induction edits with
  | refl => exact at_home
  | tail before edit ih =>
    cases edit with
    | graph graph edit =>
      exact edit.home settled (Edits.lt before bound) (Edits.proper before bound proper) ih
    | block parts start stop free => exact absurd free whole
    | record context graph _ _ _ _ => rw [graph]; exact ih
    | fragments _ _ _ _ _ _ | claims _ _ _ | tell _ => exact ih

def Session.Housed (session : Session) : Prop :=
  ∀ fragment, ∀ block ∈ fragmentBlocks session.graph fragment,
    (session.graph.node block).kind.isBlock = true ∧ session.graph.Home fragment block

theorem Session.Housed.later (housed : session.Housed) (edits : Edits rights session next)
    (settled : ¬rights.owns) (whole : ¬rights.cuts) : next.Housed := by
  intro fragment block member
  rw [edits.fragmentBlocks_eq settled] at member
  obtain ⟨isBlock, at_home⟩ := housed fragment block member
  exact ⟨edits.isBlock isBlock, edits.home settled whole (lt_size_of_isBlock isBlock)
    (Kind.ne_empty_of_isBlock isBlock) at_home⟩

end Recovery

end Structuring
