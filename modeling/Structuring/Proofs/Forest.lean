import Mathlib.Order.WellFounded
import Structuring.Proofs.Nesting
import Structuring.Proofs.Sequence

/-! Nesting is a forest.

Every node is on the outermost level or inside one that is. A structure is always made on a level
that was there before, and what it takes in from its own level ends up one step further down, so no
edit can make a node its own ancestor. The way up from a node therefore ends, and to climb along it
finds exactly what lies on it.
-/

namespace Structuring

open Bytecode Recovery FlowGraph

namespace FlowGraph

variable {rights : Rights} {graph next : FlowGraph} {level : Option NodeId} {id top : NodeId}

def Inside (graph : FlowGraph) (child parent : NodeId) : Prop :=
  (graph.node child).parent = some parent

def Rooted (graph : FlowGraph) : Prop := ∀ id, graph.Below none id

/-! The way up -/

theorem below_iff :
    graph.Below level id ↔
      ∃ top, Relation.ReflTransGen graph.Inside id top ∧ (graph.node top).parent = level := by
  constructor
  · intro below
    induction below with
    | @here id onLevel => exact ⟨id, .refl, onLevel⟩
    | up inside _ ih =>
      obtain ⟨top, leads, onLevel⟩ := ih
      exact ⟨top, .head inside leads, onLevel⟩
  · rintro ⟨top, leads, onLevel⟩
    induction leads using Relation.ReflTransGen.head_induction_on with
    | refl => exact .here onLevel
    | head inside _ ih => exact .up inside ih

theorem Rooted.wellFounded (rooted : graph.Rooted) :
    WellFounded fun parent child => graph.Inside child parent := by
  constructor
  intro id
  induction rooted id with
  | here outermost =>
    constructor
    intro parent inside
    rw [Inside, outermost] at inside
    simp at inside
  | up inside _ ih =>
    constructor
    intro parent other
    rw [Inside, inside] at other
    exact Option.some.inj other ▸ ih

theorem Rooted.not_inside_itself (rooted : graph.Rooted) (id : NodeId) :
    ¬Relation.TransGen graph.Inside id id := by
  intro cycle
  have swapped : Relation.TransGen (fun parent child => graph.Inside child parent) id id :=
    Relation.transGen_swap.mpr cycle
  exact rooted.wellFounded.transGen.irrefl.irrefl id swapped

/-- A way up goes on from every node on another one that starts alike. -/
theorem inside_total {first second : NodeId} (one : Relation.ReflTransGen graph.Inside id first)
    (two : Relation.ReflTransGen graph.Inside id second) :
    Relation.ReflTransGen graph.Inside first second ∨ Relation.ReflTransGen graph.Inside second first := by
  apply Relation.ReflTransGen.total_of_right_unique _ one two
  intro child parent other here there
  exact Option.some.inj (here.symm.trans there)

theorem Rooted.eq_of_parent_eq (rooted : graph.Rooted) {first second : NodeId}
    (leads : Relation.ReflTransGen graph.Inside first second)
    (same : (graph.node first).parent = (graph.node second).parent) : first = second := by
  rcases Relation.ReflTransGen.cases_head leads with rfl | ⟨parent, inside, above⟩
  · rfl
  · -- The parent of the first is the parent of the second too, and so above itself.
    have again : graph.Inside second parent := same.symm.trans inside
    exact absurd (Relation.TransGen.tail' above again) (rooted.not_inside_itself parent)

theorem inside_of_climbWithin (fuel : Nat) (found : graph.climbWithin level fuel id = some top) :
    Relation.ReflTransGen graph.Inside id top := by
  induction fuel generalizing id with
  | zero => simp [climbWithin] at found
  | succ fuel ih =>
    unfold climbWithin at found
    split at found
    · exact Option.some.inj found ▸ .refl
    · split at found
      · next parent inside => exact .head inside (ih found)
      · simp at found

theorem Rooted.climb_eq_some_iff (rooted : graph.Rooted) (sound : graph.Sound) (bound : id < graph.size) :
    graph.climb id level = some top ↔
      Relation.ReflTransGen graph.Inside id top ∧ (graph.node top).parent = level := by
  constructor
  · intro found
    exact ⟨inside_of_climbWithin graph.size found, parent_climb found⟩
  · rintro ⟨leads, onLevel⟩
    obtain ⟨other, found⟩ := (below_iff.mpr ⟨top, leads, onLevel⟩).climb sound bound
    have otherLeads := inside_of_climbWithin graph.size found
    have same : (graph.node other).parent = (graph.node top).parent := (parent_climb found).trans onLevel.symm
    rw [found]
    rcases inside_total otherLeads leads with up | up
    · exact congrArg some (rooted.eq_of_parent_eq up same)
    · exact congrArg some (rooted.eq_of_parent_eq up same.symm).symm

theorem climbWithin_mono {less more : Nat} (enough : less ≤ more)
    (found : graph.climbWithin level less id = some top) : graph.climbWithin level more id = some top := by
  induction less generalizing id more with
  | zero => simp [climbWithin] at found
  | succ less ih =>
    obtain ⟨more, rfl⟩ : ∃ rest, more = rest + 1 := ⟨more - 1, by omega⟩
    unfold climbWithin at found ⊢
    split at found
    · next onLevel => rw [if_pos onLevel, found]
    · next apart =>
      rw [if_neg apart]
      split at found
      · exact ih (by omega) found
      · simp at found

theorem climbWithin_eq_climb (sound : graph.Sound) (bound : id < graph.size) {fuel : Nat}
    (enough : graph.size ≤ fuel) : graph.climbWithin level fuel id = graph.climb id level := by
  cases found : graph.climb id level with
  | some top => exact climbWithin_mono enough found
  | none =>
    apply Option.eq_none_iff_forall_ne_some.mpr
    intro top longer
    have below : graph.Below level id :=
      below_iff.mpr ⟨top, inside_of_climbWithin fuel longer, parent_climbWithin fuel longer⟩
    obtain ⟨other, short⟩ := below.climb sound bound
    rw [found] at short
    simp at short

/-! Edits -/

/-- What is above a structure stays above it. Structures are neither placed nor taken over. -/
theorem GraphEdit.below_owner (edit : GraphEdit rights graph next) (sound : graph.Sound)
    (owner : graph.Owner id) (below : graph.Below level id) : next.Below level id := by
  have apart {id : NodeId} (owner : graph.Owner id) :
      (graph.node id).kind ≠ .sentinel .empty ∧ (graph.node id).kind.isBlock = false := by
    constructor
    · intro empty
      simp [Owner, empty, Kind.isStructure] at owner
    · exact owner.isBlock_eq_false
  induction below with
  | here onLevel =>
    rcases edit.parent_cases owner.lt (apart owner).1 (fun _ => (apart owner).2) with
      same | ⟨_, other, inside, above, _⟩
    · exact .here (same.trans onLevel)
    · exact .up inside (.here (above.trans onLevel))
  | @up id parent inside _ ih =>
    have outer := ih (sound.parents id parent inside)
    rcases edit.parent_cases owner.lt (apart owner).1 (fun _ => (apart owner).2) with
      same | ⟨_, other, taken, above, _⟩
    · exact .up (same.trans inside) outer
    · exact .up taken (.up (above.trans inside) outer)

theorem GraphEdit.level_of_fresh (edit : GraphEdit rights graph next) (outside : graph.size ≤ id)
    (owner : next.Owner id) : graph.IsLevel (next.node id).parent := by
  have added {kind : Kind} {start stop : Nat} {parent : Option NodeId} (level : graph.IsLevel parent)
      (owner : (graph.addNode kind start stop parent).Owner id) :
      graph.IsLevel ((graph.addNode kind start stop parent).node id).parent := by
    have bound := Nat.not_le_of_lt owner.lt
    rw [size_addNode] at bound
    rw [node_addNode, if_pos (Nat.le_antisymm (by omega) outside)]
    exact level
  have bound := Nat.not_le_of_lt owner.lt
  have kept (same : next.size = graph.size) : graph.IsLevel (next.node id).parent := by omega
  cases edit with
  | addNode kind start stop parent _ _ level => exact added level owner
  | addFragment name start stop parent _ level => exact added level owner
  | relink _ same _ => exact kept same.size
  | rename other old new _ _ => exact kept (size_mapKind _)
  | fill other kind _ _ _ _ => exact kept (size_mapKind _)
  | place other _ _ _ => exact kept (size_setParent _)
  | own _ block _ _ _ => exact kept ((size_mapKind _).trans (size_setParent _))
  | shorten other f _ => exact kept (size_mapInstructions f)
  | absorb taker level start stop _ _ _ _ => exact kept (size_absorb taker level start stop)
  | mark block jump sentinel last _ =>
    rcases (replaceJump_spec last sentinel).2 with same | ⟨grown, parent, becomes⟩
    · exact kept same
    · -- What takes the place of a jump is no structure.
      have here : id = graph.size := Nat.le_antisymm (by omega) outside
      rw [here, Owner, becomes.kind.sentinel_eq] at owner
      simp [Kind.isStructure] at owner

theorem GraphEdit.rooted (edit : GraphEdit rights graph next) (sound : graph.Sound)
    (rooted : graph.Rooted) : next.Rooted := by
  have oldOwner {id : NodeId} (owner : graph.Owner id) : next.Below none id :=
    edit.below_owner sound owner (rooted id)
  have below {id : NodeId} (level : graph.IsLevel (next.node id).parent) : next.Below none id := by
    cases parent : (next.node id).parent with
    | none => exact .here parent
    | some owner => exact .up parent (oldOwner (level owner parent))
  intro id
  cases parent : (next.node id).parent with
  | none => exact .here parent
  | some owner =>
    apply Below.up parent
    have structured : next.Owner owner := (edit.maintains.sound sound).parents id owner parent
    by_cases old : owner < graph.size
    · exact oldOwner ((edit.maintains.grows.nodes owner old).kind.isStructure.symm.trans structured)
    · exact below (edit.level_of_fresh (Nat.le_of_not_lt old) structured)

theorem GraphEdits.rooted (edits : GraphEdits rights graph next) (sound : graph.Sound)
    (rooted : graph.Rooted) : next.Rooted := by
  induction edits with
  | refl => exact rooted
  | tail before edit ih => exact edit.rooted (GraphEdits.maintains before |>.sound sound) ih

theorem rooted_empty : Rooted {} := fun id => .here (by rw [node_of_size_le (Nat.zero_le id)]; rfl)

/-! Numbers of nodes -/

def Node.numbers (node : Node) : List NodeId :=
  node.predecessors ++ node.successors ++ node.parent.toList ++ node.kind.references

theorem Sound.numbers_lt (sound : graph.Sound) {other : NodeId}
    (member : other ∈ (graph.node id).numbers) : other < graph.size := by
  simp only [Node.numbers, List.mem_append, Option.mem_toList] at member
  rcases member with ((source | target) | parent) | slot
  · exact sound.edges.source_lt source
  · exact sound.edges.target_lt target
  · exact (sound.parents id other parent).lt
  · exact sound.slots id other slot

end FlowGraph

namespace Recovery

variable {rights : Rights} {session next : Session}

/-- All numbers of nodes in a session, those in its graph apart. -/
def Session.numbers (session : Session) : List NodeId :=
  session.blocks ++ session.root.toList ++ session.fragments ++
    session.context.structures ++ session.claims.nodes

theorem Session.Sound.numbers_lt (sound : session.Sound) {id : NodeId} (member : id ∈ session.numbers) :
    id < session.graph.size := by
  simp only [numbers, List.mem_append, Option.mem_toList] at member
  rcases member with (((block | root) | fragment) | owner) | claimed
  · exact lt_size_of_isBlock ((sound.blocks id).mp block)
  · exact (sound.root id root).lt
  · exact (sound.fragments id fragment).lt
  · exact (sound.structures id owner).lt
  · exact sound.claims id claimed

theorem Edit.rooted (edit : Edit rights session next) (sound : session.Sound)
    (rooted : session.graph.Rooted) : next.graph.Rooted := by
  cases edit with
  | graph graph edit => exact edit.rooted sound.graph rooted
  | block parts start stop _ =>
    -- A block is on the outermost level, and nothing else changes its place.
    have kept : ∀ id, session.graph.Below none id →
        (session.graph.addNode (.block parts) start stop none).Below none id := by
      intro id below
      induction below with
      | here outermost =>
        apply Below.here
        rw [node_addNode]
        split
        · rfl
        · exact outermost
      | @up id parent inside _ ih =>
        have bound : id ≠ session.graph.size := by
          rintro rfl
          rw [node_of_size_le (Nat.le_refl _)] at inside
          simp [Node.absent] at inside
        exact .up (by rwa [node_addNode, if_neg bound]) ih
    exact fun id => kept id (rooted id)
  | record context graph _ _ _ _ => exact graph ▸ rooted
  | fragments _ _ _ _ _ _ | claims _ _ _ | tell _ => exact rooted

theorem Edits.rooted (edits : Edits rights session next) (sound : session.Sound)
    (rooted : session.graph.Rooted) : next.graph.Rooted := by
  induction edits with
  | refl => exact rooted
  | tail before edit ih => exact edit.rooted (Edits.sound before sound) ih

theorem Revises.rooted_leaves {α : Type} {step : Recover α} {post : α → Session → Prop}
    (revises : Revises rights step session post) (sound : session.Sound)
    (rooted : session.graph.Rooted) : (leaves step session).graph.Rooted := by
  have ends := revises.ends sound
  unfold Ends at ends
  unfold leaves
  split
  · next isResult =>
    rw [isResult] at ends
    exact ends.1.rooted sound rooted
  · next isResult =>
    rw [isResult] at ends
    exact ends.1.rooted sound rooted

end Recovery

theorem rooted_afterPasses {source : Source} {passes : List Pass}
    (standard : ∀ pass ∈ passes, pass ∈ Pass.standard) : (afterPasses source passes).graph.Rooted := by
  have both : (afterPasses source passes).Sound ∧ (afterPasses source passes).graph.Rooted := by
    apply List.foldlRecOn (motive := fun session : Session => session.Sound ∧ session.graph.Rooted) passes _
      ⟨Session.sound_empty, rooted_empty⟩
    intro session holds pass member
    have revises : Revises .full (pass.apply source) session fun _ _ => True :=
      revises_pass (standard pass member)
    exact ⟨revises.sound_leaves holds.1, revises.rooted_leaves holds.1 holds.2⟩
  exact both.2

/-- However passes follow each other and wherever they fail, no node is inside itself, the parents
are structures, and every number of a node that is kept anywhere is one of a node. So to climb stops
by itself, and it ends at the node on the level if there is one on the way up. -/
theorem forest_afterPasses (source : Source) (passes : List Pass)
    (standard : ∀ pass ∈ passes, pass ∈ Pass.standard) :
    let session := afterPasses source passes
    let graph := session.graph
    (∀ id, ¬Relation.TransGen graph.Inside id id) ∧
    (WellFounded fun parent child => graph.Inside child parent) ∧
    (∀ child parent, graph.Inside child parent → (graph.node parent).kind.isStructure = true) ∧
    (∀ id, ∀ other ∈ (graph.node id).numbers, other < graph.size) ∧
    (∀ id ∈ session.numbers, id < graph.size) ∧
    ∀ id < graph.size, ∀ level,
      (∀ fuel, graph.size ≤ fuel → graph.climbWithin level fuel id = graph.climb id level) ∧
      ∀ top, graph.climb id level = some top ↔
        Relation.ReflTransGen graph.Inside id top ∧ (graph.node top).parent = level := by
  intro session graph
  have sound : session.Sound := sound_afterPasses standard
  have rooted : graph.Rooted := rooted_afterPasses standard
  refine ⟨rooted.not_inside_itself, rooted.wellFounded, ?_, ?_, ?_, ?_⟩
  · intro child parent inside
    exact sound.graph.parents child parent inside
  · intro id other member
    exact sound.graph.numbers_lt member
  · intro id member
    exact sound.numbers_lt member
  · intro id bound level
    constructor
    · intro fuel enough
      exact climbWithin_eq_climb sound.graph bound enough
    · intro top
      exact rooted.climb_eq_some_iff sound.graph bound

/-- Loops fail halfway here: the loop is there, and to climb from block 1 to the level of the
fragment ends at the loop, also after fragments are looked for once more. -/
theorem forest_afterPasses_enteredLoop :
    (∀ pass ∈ [Pass.blocks, .fragments, .loops, .fragments], pass ∈ Pass.standard) ∧
    1 < (afterPasses enteredLoop [.blocks, .fragments, .loops, .fragments]).graph.size ∧
    (afterPasses enteredLoop [.blocks, .fragments, .loops, .fragments]).graph.climb 1 (some 5) =
      some 7 ∧
    Relation.ReflTransGen
      (afterPasses enteredLoop [.blocks, .fragments, .loops, .fragments]).graph.Inside 1 7 := by
  have standard : ∀ pass ∈ [Pass.blocks, .fragments, .loops, .fragments], pass ∈ Pass.standard := by
    simp [Pass.standard]
  have bound : 1 < (afterPasses enteredLoop
      [.blocks, .fragments, .loops, .fragments]).graph.size := by decide +kernel
  have found : (afterPasses enteredLoop [.blocks, .fragments, .loops, .fragments]).graph.climb
      1 (some 5) = some 7 := by decide +kernel
  have forest := (forest_afterPasses enteredLoop _ standard).2.2.2.2.2 1 bound (some 5)
  exact ⟨standard, bound, found, ((forest.2 7).mp found).1⟩

end Structuring
