import Structuring.Proofs.Passes.Layout
import Structuring.Proofs.Wiring

/-! Bodies that end together.

The edge that leads on from a nested body is made when the body is reached. Which fragment will own
the block at its end is found out later: the one around it, unless that one ends there too or
another body starts there.
-/

namespace Structuring

open Bytecode Recovery

variable {child : ChildEntry} {stop : Nat} {session : Session}

namespace FlowGraph

variable {graph next : FlowGraph} {address : Nat} {stack : List NodeId}

/-- Where a nested body ends, so does a nested body around it, or another body starts. -/
def Abuts (code : Code) (graph : FlowGraph) (fragment : NodeId) : Prop :=
  ∃ outer, (graph.node fragment).parent = some outer ∧
    ((graph.node outer).parent ≠ none ∧ (graph.node outer).stop = (graph.node fragment).stop ∨
      ∃ child ∈ code.children, child.start = (graph.node fragment).stop)

/-! Open fragments -/

inductive Stacked (graph : FlowGraph) : List NodeId → Prop where
  | root (id : NodeId) (outermost : (graph.node id).parent = none) : Stacked graph [id]
  | nested (inner outer : NodeId) (rest : List NodeId)
      (inside : (graph.node inner).parent = some outer)
      (ends : (graph.node inner).stop ≤ (graph.node outer).stop)
      (fresh : inner ∉ outer :: rest) (around : Stacked graph (outer :: rest)) :
      Stacked graph (inner :: outer :: rest)

namespace Stacked

theorem congr (stacked : Stacked graph stack)
    (parents : ∀ id ∈ stack, (next.node id).parent = (graph.node id).parent)
    (stops : ∀ id ∈ stack, (next.node id).stop = (graph.node id).stop) : Stacked next stack := by
  induction stacked with
  | root id outermost => exact .root id ((parents id (.head _)).trans outermost)
  | nested inner outer rest inside ends fresh _ ih =>
    refine .nested inner outer rest ((parents inner (.head _)).trans inside) ?_ fresh
      (ih (fun id member => parents id (.tail _ member)) fun id member => stops id (.tail _ member))
    rw [stops inner (.head _), stops outer (.tail _ (.head _))]
    exact ends

theorem ne_nil (stacked : Stacked graph stack) : stack ≠ [] := by
  cases stacked <;> simp

theorem stop_le {inner : NodeId} {rest : List NodeId} (stacked : Stacked graph (inner :: rest)) :
    ∀ id ∈ rest, (graph.node inner).stop ≤ (graph.node id).stop := by
  induction rest generalizing inner with
  | nil => exact List.forall_mem_nil _
  | cons outer rest ih =>
    cases stacked with
    | nested _ _ _ _ ends _ around =>
      intro id member
      rcases List.mem_cons.mp member with rfl | later
      · exact ends
      · exact Nat.le_trans ends (ih around id later)

theorem of_suffix (stacked : Stacked graph stack) {part : List NodeId} (suffix : part <:+ stack)
    (some : part ≠ []) : Stacked graph part := by
  induction stacked with
  | root id outermost =>
    rcases List.suffix_cons_iff.mp suffix with rfl | empty
    · exact .root id outermost
    · exact absurd (List.suffix_nil.mp empty) some
  | nested inner outer rest inside ends fresh around ih =>
    rcases List.suffix_cons_iff.mp suffix with rfl | later
    · exact .nested inner outer rest inside ends fresh around
    · exact ih later

theorem parent_ne_none {outer : NodeId} {rest : List NodeId} (stacked : Stacked graph (outer :: rest)) :
    (graph.node outer).parent ≠ none ↔ rest ≠ [] := by
  cases stacked with
  | root _ outermost => simp [outermost]
  | nested _ _ _ inside => simp [inside]

end Stacked

end FlowGraph

namespace Recovery

open FlowGraph

variable {graph : FlowGraph} {address : Nat} {stack : List NodeId} {current id : NodeId}

theorem closeFragments_suffix (graph : FlowGraph) (address : Nat) (stack : List NodeId) :
    closeFragments graph address stack <:+ stack := by
  fun_induction closeFragments graph address stack with
  | case1 inner outer rest _ ih => exact ih.trans (List.suffix_cons inner _)
  | case2 => exact List.suffix_rfl
  | case3 => exact List.suffix_rfl

theorem closeFragments_ne_nil (some : stack ≠ []) : closeFragments graph address stack ≠ [] := by
  fun_induction closeFragments graph address stack with
  | case1 inner outer rest _ ih => exact ih (by simp)
  | case2 => exact some
  | case3 => exact some

theorem suffix_closeFragments {rest : List NodeId} (suffix : id :: rest <:+ stack)
    (goesOn : address < (graph.node id).stop) : id :: rest <:+ closeFragments graph address stack := by
  fun_induction closeFragments graph address stack with
  | case1 inner outer more ended ih =>
    rcases List.suffix_cons_iff.mp suffix with same | later
    · obtain ⟨rfl, _⟩ := List.cons.inj same
      omega
    · exact ih later
  | case2 => exact suffix
  | case3 => exact suffix

/-- A fragment that has ended is closed with all inside it, since they end no later. -/
theorem closeFragments_of_suffix {inner outer : NodeId} {rest : List NodeId}
    (stacked : Stacked graph stack) (suffix : inner :: outer :: rest <:+ stack)
    (ended : (graph.node inner).stop ≤ address) :
    closeFragments graph address stack = closeFragments graph address (outer :: rest) := by
  induction stacked with
  | root id _ =>
    have short := suffix.length_le
    simp at short
  | nested first second more inside ends fresh around ih =>
    rcases List.suffix_cons_iff.mp suffix with same | later
    · cases same
      rw [closeFragments, if_pos ended]
    · have before : (graph.node first).stop ≤ (graph.node inner).stop :=
        (Stacked.nested first second more inside ends fresh around).stop_le inner (later.subset (.head _))
      rw [closeFragments, if_pos (Nat.le_trans before ended)]
      exact ih later

/-! Fragments put in the place of jumps -/

def openedGraph (graph : FlowGraph) (current previous : NodeId) (child : ChildEntry) (stop : Nat) :
    FlowGraph :=
  let linked := ((graph.dropBranch previous .b).addNode
    (.fragment { name := child.name, entry := none, blocks := [] }) child.start stop
    (some current)).addEdge previous graph.size
  match (graph.node previous).successors.head? with
  | some after => linked.addEdge graph.size after
  | none => linked

structure Opens (graph next : FlowGraph) (current previous : NodeId) (child : ChildEntry) (stop : Nat) :
    Prop where
  keeps : Keeps graph next
  size : next.size = graph.size + 1
  others : ∀ id < graph.size, id ≠ previous → (next.node id).kind = (graph.node id).kind ∧
    (next.node id).successors = (graph.node id).successors
  isBlock : ∀ id < graph.size, (next.node id).kind.isBlock = (graph.node id).kind.isBlock
  members : ∀ id, fragmentBlocks next id = fragmentBlocks graph id
  range : (next.node graph.size).start = child.start ∧ (next.node graph.size).stop = stop
  parent : (next.node graph.size).parent = some current
  kind : (next.node graph.size).kind = .fragment { name := child.name, entry := none, blocks := [] }
  agree : graph.Mutual → next.Mutual
  successors : (next.node graph.size).successors = (graph.node previous).successors.head?.toList

theorem fragmentBlocks_dropBranch (id : NodeId) (opcode : Opcode) (other : NodeId) :
    fragmentBlocks (graph.dropBranch id opcode) other = fragmentBlocks graph other := by
  rw [dropBranch, (sameCores_clearSuccessors _ id).fragmentBlocks]
  unfold popIf
  split
  · exact fragmentBlocks_mapInstructions _ other
  · rfl

theorem opens_openedGraph {previous : NodeId} (bound : previous < graph.size) :
    Opens graph (openedGraph graph current previous child stop) current previous child stop := by
  have keepsCut := Keeps.dropBranch graph previous .b
  have cutSize : (graph.dropBranch previous .b).size = graph.size := size_dropBranch _
  have cutKind (id : NodeId) (apart : id ≠ previous) :
      ((graph.dropBranch previous .b).node id).kind = (graph.node id).kind :=
    kind_dropBranch_of_ne apart.symm .b
  have cutAgree (agree : graph.Mutual) : (graph.dropBranch previous .b).Mutual :=
    mutual_dropBranch agree previous .b
  have cutBlock (id : NodeId) : ((graph.dropBranch previous .b).node id).kind.isBlock =
      (graph.node id).kind.isBlock := isBlock_dropBranch .b id
  have cutEdges := successors_dropBranch graph previous .b
  have cutMembers (id : NodeId) : fragmentBlocks (graph.dropBranch previous .b) id =
      fragmentBlocks graph id := fragmentBlocks_dropBranch previous .b id
  unfold openedGraph
  generalize graph.dropBranch previous .b = cut
    at keepsCut cutSize cutKind cutAgree cutBlock cutEdges cutMembers ⊢
  dsimp only
  generalize isMade : cut.addNode (.fragment { name := child.name, entry := none, blocks := [] })
    child.start stop (some current) = made
  have madeSize : made.size = graph.size + 1 := by rw [← isMade, size_addNode, cutSize]
  have madeEdges (id : NodeId) : (made.node id).successors = (cut.node id).successors :=
    isMade ▸ (sameEdges_addNode _ _ _ _).successors id
  have new : made.node graph.size =
      { start := child.start
        stop
        parent := some current
        kind := .fragment { name := child.name, entry := none, blocks := [] } } := by
    rw [← isMade, node_addNode, if_pos cutSize.symm]
  have old (id : NodeId) (inside : id < graph.size) : made.node id = cut.node id := by
    rw [← isMade, node_addNode, cutSize, if_neg (Nat.ne_of_lt inside)]
  have previousBound : previous < made.size := madeSize ▸ Nat.lt_succ_of_lt bound
  have linkedEdges (id : NodeId) : ((made.addEdge previous graph.size).node id).successors =
      if previous = id then (made.node previous).successors ++ [graph.size]
      else (made.node id).successors := successors_addEdge previousBound _ id
  have linkedAgree (agree : graph.Mutual) : (made.addEdge previous graph.size).Mutual := by
    have madeAgree : made.Mutual := isMade ▸ (sameEdges_addNode _ _ _ _).mutual (cutAgree agree)
    exact mutual_addEdge madeAgree previousBound (madeSize ▸ Nat.lt_succ_self _)
  -- With or without the second edge, the graph has the same nodes.
  have rest (next : FlowGraph) (cores : SameCores made next) (agree : graph.Mutual → next.Mutual)
      (edges : ∀ id, id ≠ previous → (next.node id).successors =
        if graph.size = id then (graph.node previous).successors.head?.toList
        else (made.node id).successors) : Opens graph next current previous child stop := by
    have keepsMade : Keeps cut made := isMade ▸ .addNode cut _ _ _ _
    refine ⟨keepsCut.trans (keepsMade.trans (.of_sameCores cores)), cores.size.trans madeSize,
      fun id inside apart => ⟨?_, ?_⟩, fun id inside => ?_, fun id => ?_, ⟨?_, ?_⟩, ?_, ?_, agree, ?_⟩
    · rw [cores.kind, old id inside, cutKind id apart]
    · rw [edges id apart, if_neg (Nat.ne_of_gt inside), madeEdges, cutEdges, if_neg apart.symm]
    · rw [cores.kind, old id inside, cutBlock]
    · rw [cores.fragmentBlocks, ← isMade, fragmentBlocks_addNode rfl, cutMembers]
    · rw [cores.start, new]
    · rw [cores.stop, new]
    · rw [cores.parent, new]
    · rw [cores.kind, new]
    · rw [edges graph.size (Nat.ne_of_gt bound), if_pos rfl]
  split
  · next after isAfter =>
    have inside : graph.size < (made.addEdge previous graph.size).size := by
      rw [size_addEdge, madeSize]
      exact Nat.lt_succ_self _
    have target : graph.Mutual → after < (made.addEdge previous graph.size).size := fun agree =>
      Nat.lt_trans (agree.target_lt (List.mem_of_head? isAfter)) inside
    refine rest _ ((sameCores_addEdge _ _).trans (sameCores_addEdge _ _))
      (fun agree => mutual_addEdge (linkedAgree agree) inside (target agree)) fun id apart => ?_
    rw [successors_addEdge inside, linkedEdges, linkedEdges, if_neg apart.symm,
      if_neg (Nat.ne_of_lt bound), isAfter, new]
    rfl
  · next isAfter =>
    refine rest _ (sameCores_addEdge _ _) linkedAgree fun id apart => ?_
    rw [linkedEdges, if_neg apart.symm, isAfter]
    split
    · next here =>
      rw [← here, new]
      rfl
    · rfl

theorem reaches_openFragment {mayFail : Prop} {previous : NodeId} :
    Reaches (fun _ => mayFail) (openFragment current previous child stop) session fun fragment final =>
      fragment = session.graph.size ∧ final.context =
        { session.context with
          graph := openedGraph session.graph current previous child stop
          fragments := session.fragments ++ [fragment] } := by
  refine .getGraph_bind (.modifyGraph_bind fun cut isCut cutGraph => ?_)
  refine .addNode_bind fun made isMade madeGraph => .modifyGraph_bind fun linked isLinked linkedGraph => ?_
  have size : cut.graph.size = session.graph.size := by rw [cutGraph, size_dropBranch]
  extract_lets finish
  have onward (next : Session) (isNext : next.context =
      { session.context with
        graph := openedGraph session.graph current previous child stop }) :
      Reaches (fun _ => mayFail) (finish ()) next fun fragment final =>
        fragment = session.graph.size ∧ final.context =
          { session.context with
            graph := openedGraph session.graph current previous child stop
            fragments := session.fragments ++ [fragment] } := by
    refine .tell_bind fun told same _ => .bind .modifyContext fun _ final isFinal => .pure ⟨size, ?_⟩
    rw [isFinal]
    dsimp only
    rw [same, isNext]
  have graph : linked.graph = ((session.graph.dropBranch previous .b).addNode
      (.fragment { name := child.name, entry := none, blocks := [] }) child.start stop
      (some current)).addEdge previous session.graph.size := by
    rw [linkedGraph, madeGraph, size, cutGraph]
  split
  · next after isAfter =>
    refine .modifyGraph_bind fun next isNext nextGraph => onward next ?_
    have opened : next.graph = openedGraph session.graph current previous child stop := by
      rw [nextGraph, graph, size, openedGraph, isAfter]
    rw [← opened, isNext, isLinked, isMade, isCut]
    simp only [Session.withGraph]
  · next isAfter =>
    have opened : linked.graph = openedGraph session.graph current previous child stop := by
      rw [graph, openedGraph, isAfter]
    refine onward linked ?_
    rw [← opened, isLinked, isMade, isCut]
    simp only [Session.withGraph]

inductive Reaching (source : Source) (context next : Context) (previous : Option NodeId)
    (stack : List NodeId) (current block : NodeId) : List NodeId → Prop where
  | stays (same : next = context) (none : source.features.has .nestedFunctions = true →
      childAt? source.code (context.graph.node block).start = .none) :
      Reaching source context next previous stack current block stack
  | opens (before : NodeId) (child : ChildEntry) (stop : Nat)
      (nests : source.features.has .nestedFunctions = true)
      (isChild : childAt? source.code (context.graph.node block).start = some child)
      (isPrevious : previous = some before)
      (skips : (context.graph.node before).jumpTarget? = some stop)
      (after : (context.graph.node block).start < stop) (within : stop ≤ (context.graph.node current).stop)
      (opened : next =
        { context with
          graph := openedGraph context.graph current before child stop
          fragments := context.fragments ++ [context.graph.size] }) :
      Reaching source context next previous stack current block (context.graph.size :: stack)

theorem returns_fragmentsAt {source : Source} {previous : Option NodeId} {block : NodeId} :
    Returns (fragmentsAt source previous stack current block) session fun found final =>
      Reaching source session.context final.context previous stack current block found := by
  refine .getGraph_bind ?_
  extract_lets start skip
  split
  · next isNone => exact .pure (.stays rfl fun _ => isNone)
  · next child isChild =>
    split
    · next nests =>
      cases isSkip : skip with
      | none => exact .throw trivial
      | some found =>
        obtain ⟨other, isPrevious, same⟩ := Option.bind_eq_some_iff.mp isSkip
        obtain ⟨target, isTarget, rfl⟩ := Option.map_eq_some_iff.mp same
        obtain ⟨skips, range⟩ := Option.filter_eq_some_iff.mp isTarget
        obtain ⟨after, within⟩ : start < target ∧ target ≤ (session.graph.node current).stop := by
          simpa using range
        refine .bind reaches_openFragment fun fragment final opened => .pure ?_
        obtain ⟨rfl, opened⟩ := opened
        exact .opens other child target nests isChild isPrevious skips after within opened
    · next flat =>
      exact .tell_bind fun final same _ => .pure (.stays same fun nests => absurd nests flat)

/-! Blocks given to fragments -/

theorem parent_ownBlock {owner block : NodeId} (bound : block < graph.size) (other : NodeId) :
    ((ownBlock graph owner block).node other).parent =
      if block = other then some owner else (graph.node other).parent := by
  split
  · next here => exact here ▸ parent_ownBlock_self bound
  · next apart => rw [ownBlock, parent_mapKind, parent_setParent _ apart]

theorem start_ownBlock (owner block other : NodeId) :
    ((ownBlock graph owner block).node other).start = (graph.node other).start := by
  rw [ownBlock, mapKind]
  refine (field_modify Node.start _ (fun node => ?_) other).trans
    (field_modify Node.start ({ · with parent := some owner }) (fun _ => rfl) other)
  rfl

theorem stop_ownBlock (owner block other : NodeId) :
    ((ownBlock graph owner block).node other).stop = (graph.node other).stop := by
  rw [ownBlock, mapKind]
  refine (field_modify Node.stop _ (fun node => ?_) other).trans
    (field_modify Node.stop ({ · with parent := some owner }) (fun _ => rfl) other)
  rfl

theorem successors_ownBlock (owner block other : NodeId) :
    ((ownBlock graph owner block).node other).successors = (graph.node other).successors := by
  rw [ownBlock, (sameEdges_mapKind _).successors, (sameEdges_setParent _).successors]

@[simp] theorem size_ownBlock (owner block : NodeId) : (ownBlock graph owner block).size = graph.size :=
  (size_mapKind _).trans (size_setParent _)

theorem mem_fragmentBlocks_ownBlock {owner block : NodeId} {parts : Fragment}
    (isOwner : (graph.node owner).kind = .fragment parts) :
    block ∈ fragmentBlocks (ownBlock graph owner block) owner := by
  have bound : owner < (graph.setParent block (some owner)).size := by
    rw [size_setParent]
    exact (Owner.of_kind isOwner rfl).lt
  have placed : ((graph.setParent block (some owner)).node owner).kind = .fragment parts :=
    (field_modify Node.kind ({ · with parent := some owner }) (fun _ => rfl) owner).trans isOwner
  rw [FlowGraph.fragmentBlocks_eq, ownBlock, mapKind, node_modify, if_pos ⟨rfl, bound⟩, placed]
  exact List.mem_append_right _ (.head _)

theorem isFragment_ownBlock {owner block other : NodeId}
    (isFragment : ∃ parts, (graph.node other).kind = .fragment parts) :
    ∃ parts, ((ownBlock graph owner block).node other).kind = .fragment parts := by
  obtain ⟨parts, isFragment⟩ := isFragment
  have placed : ((graph.setParent block (some owner)).node other).kind = .fragment parts :=
    (field_modify Node.kind ({ · with parent := some owner }) (fun _ => rfl) other).trans isFragment
  rw [ownBlock, mapKind, node_modify, placed]
  split
  · exact ⟨_, rfl⟩
  · exact ⟨parts, placed⟩

theorem isBlock_ownBlock {owner block other : NodeId} (isBlock : (graph.node other).kind.isBlock = true) :
    ((ownBlock graph owner block).node other).kind.isBlock = true := by
  have placed : ((graph.setParent block (some owner)).node other).kind = (graph.node other).kind :=
    field_modify Node.kind ({ · with parent := some owner }) (fun _ => rfl) other
  rw [ownBlock, mapKind, node_modify]
  split
  · dsimp only
    rw [placed]
    split
    · next isKind =>
      rw [isKind] at isBlock
      exact isBlock
    · exact isBlock
  · rw [placed]
    exact isBlock

structure Leads (code : Code) (graph : FlowGraph) (owner : NodeId → Option NodeId)
    (rest stack : List NodeId) (fragment outer after : NodeId) : Prop where
  inside : (graph.node fragment).parent = some outer
  ends : (graph.node fragment).stop ≤ (graph.node outer).stop
  positive : 0 < (graph.node fragment).stop
  edge : (graph.node fragment).successors = [after]
  starts : (graph.node after).start = (graph.node fragment).stop
  pending : after ∈ rest → ∃ below, fragment :: outer :: below <:+ stack
  settled : after ∉ rest → (owner after = some outer ↔ ¬graph.Abuts code fragment)

theorem abuts_iff {code : Code} {fragment outer : NodeId} (inside : (graph.node fragment).parent = some outer) :
    graph.Abuts code fragment ↔
      (graph.node outer).parent ≠ none ∧ (graph.node outer).stop = (graph.node fragment).stop ∨
        ∃ child ∈ code.children, child.start = (graph.node fragment).stop := by
  simp [Abuts, inside]

/-- When the end of a nested fragment is reached, the one around it is the innermost that stays open,
unless it ends there as well. -/
theorem head?_closeFragments {fragment outer : NodeId} {below : List NodeId}
    (stacked : Stacked graph stack) (suffix : fragment :: outer :: below <:+ stack) :
    (closeFragments graph (graph.node fragment).stop stack).head? = some outer ↔
      ¬((graph.node outer).parent ≠ none ∧ (graph.node outer).stop = (graph.node fragment).stop) := by
  rw [closeFragments_of_suffix stacked suffix (Nat.le_refl _)]
  cases stacked.of_suffix suffix (by simp) with
  | nested _ _ _ _ ends _ around =>
    rw [around.parent_ne_none]
    cases around with
    | root => simp [closeFragments]
    | nested _ next rest _ _ fresh _ =>
      rw [closeFragments]
      split
      · next ended =>
        -- The root is never closed, so another fragment is innermost now.
        have same := Nat.le_antisymm ended ends
        simp only [ne_eq, reduceCtorEq, not_false_eq_true, same, and_self, not_true_eq_false, iff_false]
        exact fun isHead => fresh (mem_of_mem_closeFragments (List.mem_of_head? isHead))
      · next goesOn =>
        simp only [List.head?_cons, ne_eq, reduceCtorEq, not_false_eq_true, true_and, true_iff]
        omega

namespace Leads

variable {code : Code} {owner : NodeId → Option NodeId} {rest found : List NodeId}
  {fragment outer after block top : NodeId}

/-- Only the fragment, the one around it and the block at its end matter. -/
theorem congr {next : FlowGraph} {owns : NodeId → Option NodeId}
    (leads : Leads code graph owner rest stack fragment outer after)
    (parents : ∀ id, id = fragment ∨ id = outer → (next.node id).parent = (graph.node id).parent)
    (stops : ∀ id, id = fragment ∨ id = outer → (next.node id).stop = (graph.node id).stop)
    (edges : (next.node fragment).successors = (graph.node fragment).successors)
    (start : (next.node after).start = (graph.node after).start) (same : owns after = owner after) :
    Leads code next owns rest stack fragment outer after := by
  have inner := stops fragment (.inl rfl)
  have around := stops outer (.inr rfl)
  have inside := (parents fragment (.inl rfl)).trans leads.inside
  have abuts : next.Abuts code fragment ↔ graph.Abuts code fragment := by
    rw [abuts_iff inside, abuts_iff leads.inside, parents outer (.inr rfl), inner, around]
  refine ⟨inside, ?_, ?_, edges.trans leads.edge, ?_, leads.pending, fun passed => ?_⟩
  · rw [inner, around]
    exact leads.ends
  · rw [inner]
    exact leads.positive
  · rw [start, inner]
    exact leads.starts
  · rw [same, abuts]
    exact leads.settled passed

theorem reach (leads : Leads code graph owner (block :: rest) stack fragment outer after)
    (later : ∀ id ∈ rest, (graph.node block).start < (graph.node id).start)
    (wider : closeFragments graph (graph.node block).start stack <:+ found)
    (decided : after = block → (top = outer ↔ ¬graph.Abuts code fragment)) :
    Leads code graph (fun id => if block = id then some top else owner id) rest found
      fragment outer after := by
  refine { leads with pending := fun toCome => ?_, settled := fun passed => ?_ }
  · obtain ⟨below, suffix⟩ := leads.pending (.tail _ toCome)
    have goesOn : (graph.node block).start < (graph.node fragment).stop := leads.starts ▸ later after toCome
    exact ⟨below, (suffix_closeFragments suffix goesOn).trans wider⟩
  · by_cases here : block = after
    · rw [if_pos here, Option.some.injEq]
      exact decided here.symm
    · rw [if_neg here]
      refine leads.settled fun member => ?_
      rcases List.mem_cons.mp member with same | toCome
      · exact here same.symm
      · exact passed toCome

theorem opens {next : FlowGraph} {before : NodeId}
    (leads : Leads code graph (fun id => (graph.node id).parent) (block :: rest) stack fragment outer after)
    (opens : Opens graph next current before child stop)
    (later : ∀ id ∈ rest, (graph.node block).start < (graph.node id).start)
    (isChild : childAt? code (graph.node block).start = some child)
    (fragmentBound : fragment < graph.size) (apart : fragment ≠ before)
    (outerBound : outer < graph.size) (afterBound : after < graph.size) :
    Leads code next (fun id => if block = id then some graph.size else (next.node id).parent) rest
      (graph.size :: closeFragments graph (graph.node block).start stack) fragment outer after := by
  have keeps := opens.keeps
  have bounds (id : NodeId) (which : id = fragment ∨ id = outer) : id < graph.size := by
    rcases which with rfl | rfl
    · exact fragmentBound
    · exact outerBound
  have decided : after = block → (graph.size = outer ↔ ¬graph.Abuts code fragment) := by
    rintro rfl
    have starts := List.find?_some isChild
    simp only [Bool.and_eq_true, beq_iff_eq] at starts
    have abuts : graph.Abuts code fragment := (abuts_iff leads.inside).mpr
      (.inr ⟨child, List.mem_of_find?_eq_some isChild, starts.1.trans leads.starts⟩)
    exact iff_of_false (Nat.ne_of_gt outerBound) (not_not_intro abuts)
  have reached := leads.reach later (List.suffix_cons graph.size _) decided
  refine reached.congr (fun id which => keeps.parent id (bounds id which))
    (fun id which => keeps.stop id (bounds id which)) (opens.others fragment fragmentBound apart).2
    (keeps.start after afterBound) ?_
  simp only [keeps.parent after afterBound]

end Leads

theorem Opens.leads {code : Code} {next : FlowGraph} {before after : NodeId}
    {owner : NodeId → Option NodeId} {rest below : List NodeId}
    (opens : Opens graph next current before child stop) (currentBound : current < graph.size)
    (afterBound : after < graph.size) (positive : 0 < stop)
    (within : stop ≤ (graph.node current).stop) (edge : (graph.node before).successors = [after])
    (starts : (graph.node after).start = stop) (toCome : after ∈ rest) :
    Leads code next owner rest (graph.size :: current :: below) graph.size current after := by
  refine ⟨opens.parent, ?_, ?_, ?_, ?_, fun _ => ⟨below, List.suffix_rfl⟩, fun passed => absurd toCome passed⟩
  · rw [opens.range.2, opens.keeps.stop current currentBound]
    exact within
  · rw [opens.range.2]
    exact positive
  · rw [opens.successors, edge]
    rfl
  · rw [opens.range.2, opens.keeps.start after afterBound]
    exact starts

/-- The blocks that are done have owners. Fragments lead to blocks with owners or to ones still to
come, and jumps of the blocks that are left still have the edges they were made with. -/
structure Assigning (source : Source) (context : Context) (owner : NodeId → Option NodeId)
    (previous : Option NodeId) (done rest coming stack : List NodeId) : Prop where
  stacked : context.graph.Stacked stack
  among : ∀ id ∈ stack, id ∈ context.fragments
  blocks : context.blocks = done ++ rest
  last : ∀ id, previous = some id → id ∈ done
  increasing : context.Increasing
  areBlocks : ∀ id ∈ context.blocks, (context.graph.node id).kind.isBlock = true
  areFragments : ∀ id ∈ context.fragments, ∃ parts, (context.graph.node id).kind = .fragment parts
  all : ∀ id < context.graph.size, id ∈ context.blocks ∨ id ∈ context.fragments
  agree : context.graph.Mutual
  owned : ∀ block ∈ done, ∃ fragment ∈ context.fragments, block ∈ fragmentBlocks context.graph fragment
  placed : ∀ fragment, ∀ block ∈ fragmentBlocks context.graph fragment,
    block ∈ done ∧ (context.graph.node block).parent = some fragment
  jumps : ∀ block, previous = some block ∨ block ∈ rest → ∀ target,
    (context.graph.node block).jumpTarget? = some target → ∃ after ∈ context.blocks,
      (context.graph.node block).successors = [after] ∧ (context.graph.node after).start = target
  leads : ∀ fragment ∈ context.fragments,
    (context.graph.node fragment).parent = none ∧ (context.graph.node fragment).successors = [] ∨
      source.features.has .nestedFunctions = true ∧ ∃ outer ∈ context.fragments, ∃ after ∈ context.blocks,
        Leads source.code context.graph owner coming stack fragment outer after

namespace Assigning

variable {source : Source} {context : Context} {owner : NodeId → Option NodeId}
  {previous : Option NodeId} {done rest coming : List NodeId} {block top : NodeId}

section

variable (assigning : Assigning source context owner previous done rest coming stack)

include assigning

theorem block_lt (member : id ∈ context.blocks) : id < context.graph.size :=
  lt_size_of_isBlock (assigning.areBlocks id member)

theorem fragment_lt (member : id ∈ context.fragments) : id < context.graph.size := by
  obtain ⟨parts, isFragment⟩ := assigning.areFragments id member
  exact (Owner.of_kind isFragment rfl).lt

theorem apart {fragment : NodeId} (isFragment : fragment ∈ context.fragments) (isBlock : id ∈ context.blocks) :
    fragment ≠ id := by
  rintro rfl
  obtain ⟨parts, kind⟩ := assigning.areFragments fragment isFragment
  have block := assigning.areBlocks fragment isBlock
  rw [kind] at block
  exact Bool.false_ne_true block

end

section

variable (assigning : Assigning source context owner previous done (block :: rest) coming stack)

include assigning

theorem later : ∀ id ∈ rest, (context.graph.node block).start < (context.graph.node id).start := by
  have increasing := assigning.increasing
  rw [Context.Increasing, assigning.blocks] at increasing
  exact (List.pairwise_cons.mp (List.pairwise_append.mp increasing).2.1).1

theorem ne_of_mem_done (isDone : id ∈ done) {left : NodeId} (isLeft : left ∈ block :: rest) : id ≠ left := by
  rintro rfl
  have increasing := assigning.increasing
  rw [Context.Increasing, assigning.blocks] at increasing
  exact Nat.lt_irrefl _ ((List.pairwise_append.mp increasing).2.2 id isDone id isLeft)

theorem mem_of_start_lt {after : NodeId} (isAfter : after ∈ context.blocks)
    (beyond : (context.graph.node block).start < (context.graph.node after).start) : after ∈ rest := by
  have increasing := assigning.increasing
  rw [Context.Increasing, assigning.blocks] at increasing
  rw [assigning.blocks] at isAfter
  rcases List.mem_append.mp isAfter with old | left
  · have before := (List.pairwise_append.mp increasing).2.2 after old block (.head _)
    omega
  · rcases List.mem_cons.mp left with rfl | toCome
    · omega
    · exact toCome

end

section

variable
  (assigning : Assigning source context (fun id => (context.graph.node id).parent) previous done
    (block :: rest) (block :: rest) stack)

include assigning

/-- No body starts at the block, so the innermost fragment that is open there owns it. -/
theorem reach_stays
    (none : source.features.has .nestedFunctions = true →
      childAt? source.code (context.graph.node block).start = .none)
    (isTop : (closeFragments context.graph (context.graph.node block).start stack).head? = some top) :
    Assigning source context (fun id => if block = id then some top else (context.graph.node id).parent)
      .none done (block :: rest) rest
      (closeFragments context.graph (context.graph.node block).start stack) := by
  have suffix := closeFragments_suffix context.graph (context.graph.node block).start stack
  have some : closeFragments context.graph (context.graph.node block).start stack ≠ [] := by
    intro empty
    simp [empty] at isTop
  refine { assigning with
    stacked := assigning.stacked.of_suffix suffix some
    among := fun id member => assigning.among id (suffix.subset member)
    last := fun _ same => absurd same (by simp)
    jumps := fun id left => assigning.jumps id (.inr (left.resolve_left (by simp)))
    leads := fun fragment member => ?_ }
  rcases assigning.leads fragment member with outermost | ⟨nests, outer, isOuter, after, isAfter, leads⟩
  · exact .inl outermost
  refine .inr ⟨nests, outer, isOuter, after, isAfter, leads.reach assigning.later List.suffix_rfl ?_⟩
  rintro rfl
  obtain ⟨below, isOpen⟩ := leads.pending (.head _)
  have ends := head?_closeFragments assigning.stacked isOpen
  rw [← leads.starts, isTop, Option.some.injEq] at ends
  -- A body that starts where the fragment ends would have been found.
  have noChild : ¬∃ child ∈ source.code.children, child.start = (context.graph.node fragment).stop := by
    rintro ⟨child, isChild, starts⟩
    have positive := leads.positive
    have missed := List.find?_eq_none.mp (none nests) child isChild
    simp [leads.starts, starts] at missed
    omega
  rw [ends, abuts_iff leads.inside, leads.starts]
  simp only [noChild, or_false]

theorem reach_opens
    {before : NodeId}
    (isCurrent : (closeFragments context.graph (context.graph.node block).start stack).head? = some current)
    (nests : source.features.has .nestedFunctions = true)
    (isChild : childAt? source.code (context.graph.node block).start = some child)
    (isPrevious : previous = some before)
    (skips : (context.graph.node before).jumpTarget? = some stop)
    (beyond : (context.graph.node block).start < stop)
    (within : stop ≤ (context.graph.node current).stop) :
    Assigning source
      { context with
        graph := openedGraph context.graph current before child stop
        fragments := context.fragments ++ [context.graph.size] }
      (fun id => if block = id then some context.graph.size
        else ((openedGraph context.graph current before child stop).node id).parent)
      .none done (block :: rest) rest (context.graph.size ::
        closeFragments context.graph (context.graph.node block).start stack) := by
  have isBefore : before ∈ context.blocks := by
    rw [assigning.blocks]
    exact List.mem_append_left _ (assigning.last before isPrevious)
  have opens : Opens context.graph (openedGraph context.graph current before child stop) current before
      child stop := opens_openedGraph (assigning.block_lt isBefore)
  generalize openedGraph context.graph current before child stop = opened at opens ⊢
  have closedSuffix := closeFragments_suffix context.graph (context.graph.node block).start stack
  obtain ⟨below, isClosed⟩ := List.head?_eq_some_iff.mp isCurrent
  have closedStacked := assigning.stacked.of_suffix closedSuffix (by simp [isClosed])
  have keeps := opens.keeps
  have isFound (id : NodeId) (member : id ∈ current :: below) : id ∈ context.fragments :=
    assigning.among id (closedSuffix.subset (isClosed ▸ member))
  have still (id : NodeId) (left : id ∈ block :: rest) : id ∈ context.blocks ∧ id ≠ before := by
    exact ⟨assigning.blocks ▸ List.mem_append_right _ left,
      (assigning.ne_of_mem_done (assigning.last before isPrevious) left).symm⟩
  have others (fragment : NodeId) (member : fragment ∈ context.fragments) :=
    opens.others fragment (assigning.fragment_lt member) (assigning.apart member isBefore)
  refine ⟨?_, fun id member => ?_, assigning.blocks, fun _ same => absurd same (by simp), ?_,
    fun id member => ?_, fun id member => ?_, fun id inside => ?_, opens.agree assigning.agree,
    fun id member => ?_, fun fragment id listed => ?_, fun id left target jumps => ?_,
    fun fragment member => ?_⟩
  · rw [isClosed] at closedStacked ⊢
    refine .nested _ current below opens.parent ?_ (fun member => ?_) ?_
    · rw [opens.range.2, keeps.stop current (assigning.fragment_lt (isFound current (.head _)))]
      exact within
    · exact Nat.lt_irrefl _ (assigning.fragment_lt (isFound _ member))
    · exact closedStacked.congr (fun id member => keeps.parent id (assigning.fragment_lt (isFound id member)))
        fun id member => keeps.stop id (assigning.fragment_lt (isFound id member))
  · rcases List.mem_cons.mp member with rfl | old
    · exact List.mem_append_right _ (.head _)
    · exact List.mem_append_left _ (isFound id (isClosed ▸ old))
  · refine List.Pairwise.imp_of_mem (fun {first second} isFirst isSecond less => ?_) assigning.increasing
    rw [keeps.start first (assigning.block_lt isFirst), keeps.start second (assigning.block_lt isSecond)]
    exact less
  · rw [opens.isBlock id (assigning.block_lt member)]
    exact assigning.areBlocks id member
  · rcases List.mem_append.mp member with old | new
    · rw [(others id old).1]
      exact assigning.areFragments id old
    · rw [List.mem_singleton.mp new]
      exact ⟨_, opens.kind⟩
  · rw [opens.size] at inside
    rcases Nat.lt_succ_iff_lt_or_eq.mp inside with old | rfl
    · exact (assigning.all id old).imp_right (List.mem_append_left _)
    · exact .inr (List.mem_append_right _ (.head _))
  · obtain ⟨fragment, isFragment, listed⟩ := assigning.owned id member
    exact ⟨fragment, List.mem_append_left _ isFragment, opens.members fragment ▸ listed⟩
  · rw [opens.members] at listed
    obtain ⟨isDone, level⟩ := assigning.placed fragment id listed
    have isBlock : id ∈ context.blocks := assigning.blocks ▸ List.mem_append_left _ isDone
    exact ⟨isDone, (keeps.parent id (assigning.block_lt isBlock)).trans level⟩
  · have left := left.resolve_left (by simp)
    obtain ⟨isBlock, apart⟩ := still id left
    obtain ⟨kind, edges⟩ := opens.others id (assigning.block_lt isBlock) apart
    have instructions : (opened.node id).instructions = (context.graph.node id).instructions := by
      simp only [Node.instructions, kind]
    rw [Node.jumpTarget?_congr instructions] at jumps
    obtain ⟨after, isAfter, edge, starts⟩ := assigning.jumps id (.inr left) target jumps
    exact ⟨after, isAfter, edges.trans edge, (keeps.start after (assigning.block_lt isAfter)).trans starts⟩
  · rcases List.mem_append.mp member with old | new
    · have bound := assigning.fragment_lt old
      rcases assigning.leads fragment old with
        ⟨outermost, none⟩ | ⟨_, outer, isOuter, after, isAfter, leads⟩
      · exact .inl ⟨(keeps.parent fragment bound).trans outermost, (others fragment old).2.trans none⟩
      · exact .inr ⟨nests, outer, List.mem_append_left _ isOuter, after, isAfter,
          leads.opens opens assigning.later isChild bound (assigning.apart old isBefore)
            (assigning.fragment_lt isOuter) (assigning.block_lt isAfter)⟩
    · obtain ⟨after, isAfter, edge, starts⟩ := assigning.jumps before (.inl isPrevious) stop skips
      rw [List.mem_singleton.mp new, isClosed]
      refine .inr ⟨nests, current, List.mem_append_left _ (isFound current (.head _)), after, isAfter,
        opens.leads (assigning.fragment_lt (isFound current (.head _))) (assigning.block_lt isAfter)
          (Nat.lt_of_le_of_lt (Nat.zero_le _) beyond) within edge starts ?_⟩
      exact assigning.mem_of_start_lt isAfter (starts ▸ beyond)

end

theorem own (assigning : Assigning source context
      (fun id => if block = id then some top else (context.graph.node id).parent) none done
      (block :: rest) rest stack) (isTop : top ∈ stack) :
    Assigning source { context with graph := ownBlock context.graph top block }
      (fun id => ((ownBlock context.graph top block).node id).parent) (some block)
      (done ++ [block]) rest rest stack := by
  have isBlock : block ∈ context.blocks := by simp [assigning.blocks]
  have bound := assigning.block_lt isBlock
  have parents (id : NodeId) : ((ownBlock context.graph top block).node id).parent =
      if block = id then some top else (context.graph.node id).parent := parent_ownBlock bound id
  have fragmentParent (id : NodeId) (member : id ∈ context.fragments) :
      ((ownBlock context.graph top block).node id).parent = (context.graph.node id).parent := by
    rw [parents, if_neg (assigning.apart member isBlock).symm]
  refine ⟨?_, assigning.among, ?_, ?_, ?_, ?_, ?_, ?_, ?_, ?_, ?_, ?_, ?_⟩
  · exact assigning.stacked.congr (fun id member => fragmentParent id (assigning.among id member))
      fun id _ => stop_ownBlock top block id
  · rw [assigning.blocks, List.append_assoc]
    rfl
  · rintro _ ⟨⟩
    exact List.mem_append_right _ (.head _)
  · refine assigning.increasing.imp fun {first second} before => ?_
    simpa only [start_ownBlock] using before
  · exact fun id member => isBlock_ownBlock (assigning.areBlocks id member)
  · exact fun id member => isFragment_ownBlock (assigning.areFragments id member)
  · exact fun id inside => assigning.all id (size_ownBlock top block ▸ inside)
  · exact (sameEdges_mapKind _).mutual ((sameEdges_setParent _).mutual assigning.agree)
  · intro id member
    rcases List.mem_append.mp member with old | new
    · obtain ⟨fragment, isFragment, listed⟩ := assigning.owned id old
      refine ⟨fragment, isFragment, ?_⟩
      rcases fragmentBlocks_ownBlock context.graph top block fragment with same | ⟨_, more⟩
      · exact same ▸ listed
      · exact more ▸ List.mem_append_left _ listed
    · obtain ⟨parts, isFragment⟩ := assigning.areFragments top (assigning.among top isTop)
      rw [List.mem_singleton.mp new]
      exact ⟨top, assigning.among top isTop, mem_fragmentBlocks_ownBlock isFragment⟩
  · intro fragment id listed
    have old (among : id ∈ fragmentBlocks context.graph fragment) : id ∈ done ++ [block] ∧
        ((ownBlock context.graph top block).node id).parent = some fragment := by
      obtain ⟨isDone, level⟩ := assigning.placed fragment id among
      rw [parents, if_neg (assigning.ne_of_mem_done isDone (.head _)).symm]
      exact ⟨List.mem_append_left _ isDone, level⟩
    rcases fragmentBlocks_ownBlock context.graph top block fragment with same | ⟨rfl, more⟩
    · exact old (same ▸ listed)
    · rcases List.mem_append.mp (more ▸ listed) with among | new
      · exact old among
      · rw [List.mem_singleton.mp new, parents, if_pos rfl]
        exact ⟨List.mem_append_right _ (.head _), rfl⟩
  · intro id left target jumps
    rw [Node.jumpTarget?_congr (instructions_ownBlock top block id)] at jumps
    have still : id ∈ block :: rest := by
      rcases left with same | later
      · exact Option.some.inj same ▸ .head _
      · exact .tail _ later
    obtain ⟨after, isAfter, edge, starts⟩ := assigning.jumps id (.inr still) target jumps
    exact ⟨after, isAfter, (successors_ownBlock top block id).trans edge,
      (start_ownBlock top block after).trans starts⟩
  · intro fragment member
    rcases assigning.leads fragment member with ⟨outermost, none⟩ | ⟨nests, outer, isOuter, after, isAfter, leads⟩
    · exact .inl ⟨(fragmentParent fragment member).trans outermost,
        (successors_ownBlock top block fragment).trans none⟩
    · refine .inr ⟨nests, outer, isOuter, after, isAfter, leads.congr (fun id which => ?_)
        (fun id _ => stop_ownBlock top block id) (successors_ownBlock top block fragment)
        (start_ownBlock top block after) (parents after)⟩
      rcases which with rfl | rfl
      · exact fragmentParent _ member
      · exact fragmentParent _ isOuter

/-- Whatever reaching a block does to the open fragments, the innermost one then owns the block. -/
theorem reach {next : Context} {found : List NodeId}
    (assigning : Assigning source context (fun id => (context.graph.node id).parent) previous done
      (block :: rest) (block :: rest) stack)
    (isCurrent : (closeFragments context.graph (context.graph.node block).start stack).head? = some current)
    (reaching : Reaching source context next previous
      (closeFragments context.graph (context.graph.node block).start stack) current block found) :
    ∃ top, found.head? = some top ∧
      Assigning source next (fun id => if block = id then some top else (next.graph.node id).parent)
        none done (block :: rest) rest found := by
  cases reaching with
  | stays same none =>
    subst same
    exact ⟨current, isCurrent, assigning.reach_stays none isCurrent⟩
  | opens before child stop nests isChild isPrevious skips beyond within opened =>
    subst opened
    exact ⟨context.graph.size, rfl,
      assigning.reach_opens isCurrent nests isChild isPrevious skips beyond within⟩

end Assigning

/-- Along the blocks, owners are given, and whatever else each block keeps is kept. -/
theorem returns_assignBlocks {source : Source} {root : NodeId}
    {previous : Option NodeId} {done rest : List NodeId}
    (keeps : Context → Option NodeId → List NodeId → List NodeId → List NodeId → Prop)
    (step : ∀ {context next : Context} {previous : Option NodeId} {done rest stack found : List NodeId}
      {current block top : NodeId},
      Assigning source context (fun id => (context.graph.node id).parent) previous done (block :: rest)
        (block :: rest) stack → keeps context previous done (block :: rest) stack →
      (closeFragments context.graph (context.graph.node block).start stack).head? = some current →
      Reaching source context next previous
        (closeFragments context.graph (context.graph.node block).start stack) current block found →
      found.head? = some top →
      Assigning source next (fun id => if block = id then some top else (next.graph.node id).parent) none done
        (block :: rest) rest found →
      keeps { next with graph := ownBlock next.graph top block } (some block) (done ++ [block]) rest found)
    (assigning : Assigning source session.context (fun id => (session.graph.node id).parent)
      previous done rest rest stack) (kept : keeps session.context previous done rest stack) :
    Returns (assignBlocks source root previous stack rest) session fun found final => ∃ last,
      Assigning source final.context (fun id => (final.graph.node id).parent) last
        (done ++ rest) [] [] found ∧ keeps final.context last (done ++ rest) [] found := by
  induction rest generalizing session previous done stack with
  | nil => exact .pure ⟨previous, by simpa using assigning, by simpa using kept⟩
  | cons block rest ih =>
    refine .getGraph_bind ?_
    dsimp only
    generalize isClosed : closeFragments session.graph (session.graph.node block).start stack = closed
    have some : closed ≠ [] := isClosed ▸ closeFragments_ne_nil assigning.stacked.ne_nil
    obtain ⟨current, below, rfl⟩ := List.exists_cons_of_ne_nil some
    refine .bind returns_fragmentsAt fun found opened reaching => ?_
    have isCurrent : (closeFragments session.graph (session.graph.node block).start
        stack).head? = .some current := by
      rw [isClosed]
      rfl
    have reaching : Reaching source session.context opened.context previous (closeFragments
        session.graph (session.graph.node block).start stack) current block found := by
      rw [isClosed]
      exact reaching
    obtain ⟨top, isTop, reached⟩ := assigning.reach isCurrent reaching
    refine .modifyGraph_bind fun owned isOwned _ => ?_
    rw [isTop] at isOwned
    have context : owned.context =
        { opened.context with graph := ownBlock opened.graph top block } := by
      rw [isOwned]
      rfl
    rw [List.append_cons]
    refine ih (context ▸ reached.own (List.mem_of_head? isTop)) ?_
    exact context ▸ step assigning kept isCurrent reaching isTop reached

end Recovery

end Structuring
