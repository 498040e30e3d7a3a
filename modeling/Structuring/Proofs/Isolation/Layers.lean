import Structuring.Proofs.Isolation.Assign

/-! Functions inside functions.

In the scan that gives blocks to functions, what is closed lies behind and what is open lies around the
block that is reached. So a function that starts there is apart from the former and inside of the latter,
and the innermost open function is the smallest one around the block.
-/

namespace Structuring

open Bytecode Recovery

namespace FlowGraph

variable {graph next : FlowGraph} {address : Nat} {stack : List NodeId} {id top : NodeId}

def LiesIn (graph : FlowGraph) (inner outer : NodeId) : Prop :=
  (graph.node outer).start ≤ (graph.node inner).start ∧ (graph.node inner).stop ≤ (graph.node outer).stop

def Spans (graph : FlowGraph) (id : NodeId) (address : Nat) : Prop :=
  (graph.node id).start ≤ address ∧ address < (graph.node id).stop

theorem LiesIn.refl (graph : FlowGraph) (id : NodeId) : graph.LiesIn id id := ⟨Nat.le_refl _, Nat.le_refl _⟩

theorem LiesIn.trans {inner middle outer : NodeId} (first : graph.LiesIn inner middle)
    (second : graph.LiesIn middle outer) : graph.LiesIn inner outer :=
  ⟨Nat.le_trans second.1 first.1, Nat.le_trans first.2 second.2⟩

theorem Stacked.liesIn {below : List NodeId} (stacked : Stacked graph (top :: below))
    (rising : ∀ id ∈ top :: below, ∀ outer, (graph.node id).parent = some outer →
      (graph.node outer).start ≤ (graph.node id).start) :
    ∀ id ∈ top :: below, graph.LiesIn top id := by
  induction below generalizing top with
  | nil =>
    intro id member
    exact List.mem_singleton.mp member ▸ .refl graph top
  | cons outer rest ih =>
    cases stacked with
    | nested _ _ _ inside ends _ around =>
      intro id member
      rcases List.mem_cons.mp member with rfl | later
      · exact .refl graph id
      · exact .trans ⟨rising top (.head _) outer inside, ends⟩
          (ih around (fun id among => rising id (.tail _ among)) id later)

end FlowGraph

namespace Recovery

open FlowGraph

variable {graph : FlowGraph} {address : Nat} {stack : List NodeId} {top : NodeId}

theorem mem_closeFragments_or {id : NodeId} (member : id ∈ stack) :
    id ∈ closeFragments graph address stack ∨ (graph.node id).stop ≤ address := by
  fun_induction closeFragments graph address stack with
  | case1 inner outer rest ended ih =>
    rcases List.mem_cons.mp member with rfl | later
    · exact .inr ended
    · exact ih later
  | case2 => exact .inl member
  | case3 => exact .inl member

theorem lt_stop_of_closeFragments (stacked : Stacked graph stack)
    (isTop : (closeFragments graph address stack).head? = some top)
    (nested : (graph.node top).parent ≠ none) : address < (graph.node top).stop := by
  fun_induction closeFragments graph address stack with
  | case1 inner outer rest _ ih =>
    exact ih (stacked.of_suffix (List.suffix_cons inner _) (by simp)) isTop
  | case2 inner outer rest goesOn =>
    cases isTop
    exact Nat.lt_of_not_le goesOn
  | case3 stack short =>
    cases stacked with
    | root id outermost =>
      cases isTop
      exact absurd outermost nested
    | nested inner outer rest => exact absurd rfl (short inner outer rest)

/-! Layers -/

structure Layers (code : Code) (context : Context) (done : List NodeId) : Prop where
  rooted : ∃ root nested, context.root = some root ∧ context.fragments = root :: nested ∧
    (context.graph.node root).start = 0 ∧ (context.graph.node root).stop = code.length ∧
    (context.graph.node root).parent = none
  bounded : ∀ fragment ∈ context.fragments, (context.graph.node fragment).stop ≤ code.length
  layers : context.fragments.Pairwise fun first second =>
    (context.graph.node first).start < (context.graph.node second).start ∧
      ((context.graph.node first).stop ≤ (context.graph.node second).start ∨
        (context.graph.node second).stop ≤ (context.graph.node first).stop)
  nested : ∀ fragment ∈ context.fragments, context.root ≠ some fragment →
    (context.graph.node fragment).start < (context.graph.node fragment).stop ∧
      ∃ outer ∈ context.fragments, (context.graph.node fragment).parent = some outer ∧
        (context.graph.node outer).start < (context.graph.node fragment).start ∧
        (context.graph.node fragment).stop ≤ (context.graph.node outer).stop ∧
        ∀ other ∈ context.fragments,
          (context.graph.node other).start < (context.graph.node fragment).start →
          (context.graph.node fragment).start < (context.graph.node other).stop →
            context.graph.LiesIn outer other
  reaches : ∃ block ∈ context.blocks, code.length ≤ (context.graph.node block).start
  sorted : ∀ fragment, (fragmentBlocks context.graph fragment).Pairwise fun first second =>
    (context.graph.node first).start < (context.graph.node second).start
  homes : ∀ block ∈ done, (context.graph.node block).start < code.length → ∀ owner,
    (context.graph.node block).parent = some owner →
      context.graph.Spans owner (context.graph.node block).start ∧
        ∀ other ∈ context.fragments, context.graph.Spans other (context.graph.node block).start →
          context.graph.LiesIn owner other

/-- In the middle of the scan: what is not open has ended before the blocks that are still to come. -/
structure Layered (code : Code) (context : Context) (done rest stack : List NodeId) : Prop
    extends Layers code context done where
  begun : ∀ fragment ∈ context.fragments, (context.graph.node fragment).start = 0 ∨
    ∀ id ∈ rest, (context.graph.node fragment).start < (context.graph.node id).start
  passed : ∀ fragment ∈ context.fragments, fragment ∈ stack ∨
    ∀ id ∈ rest, (context.graph.node fragment).stop ≤ (context.graph.node id).start
  ended : ∀ block ∈ done, code.length ≤ (context.graph.node block).start → stack.tail = []

structure Arrived (code : Code) (context : Context) (done stack : List NodeId) (block : NodeId) : Prop
    extends Layers code context done where
  begun : ∀ fragment ∈ context.fragments, (context.graph.node fragment).start ≤ (context.graph.node block).start
  passed : ∀ fragment ∈ context.fragments, fragment ∈ stack ∨
    (context.graph.node fragment).stop ≤ (context.graph.node block).start
  inmost : ∀ top, stack.head? = some top → ∀ fragment ∈ stack, context.graph.LiesIn top fragment
  goesOn : ∀ top, stack.head? = some top → (context.graph.node block).start < code.length →
    (context.graph.node block).start < (context.graph.node top).stop
  ended : code.length ≤ (context.graph.node block).start → stack.tail = []

variable {source : Source} {context : Context} {owner : NodeId → Option NodeId} {previous : Option NodeId}
  {done rest coming : List NodeId} {block : NodeId}

theorem Layers.later {next : FlowGraph} (layers : Layers source.code context done)
    (assigning : Assigning source context owner previous done rest coming stack)
    (keeps : Keeps context.graph next)
    (members : ∀ id, fragmentBlocks next id = fragmentBlocks context.graph id) :
    Layers source.code { context with graph := next } done := by
  have fragments (id : NodeId) (member : id ∈ context.fragments) : id < context.graph.size :=
    assigning.fragment_lt member
  have blocks (id : NodeId) (isDone : id ∈ done) : id < context.graph.size :=
    assigning.block_lt (assigning.blocks ▸ List.mem_append_left _ isDone)
  have liesIn {inner outer : NodeId} (inside : inner < context.graph.size)
      (around : outer < context.graph.size) (lies : context.graph.LiesIn inner outer) : next.LiesIn inner outer := by
    unfold LiesIn
    rw [keeps.start inner inside, keeps.start outer around, keeps.stop inner inside, keeps.stop outer around]
    exact lies
  constructor
  case rooted =>
    obtain ⟨root, nested, isRoot, isList, start, stop, outermost⟩ := layers.rooted
    have bound := fragments root (by simp [isList])
    exact ⟨root, nested, isRoot, isList, (keeps.start root bound).trans start, (keeps.stop root bound).trans stop,
      (keeps.parent root bound).trans outermost⟩
  case bounded =>
    intro fragment member
    rw [keeps.stop fragment (fragments fragment member)]
    exact layers.bounded fragment member
  case layers =>
    refine layers.layers.imp_of_mem fun {first second} isFirst isSecond apart => ?_
    have one := fragments first isFirst
    have two := fragments second isSecond
    rw [keeps.start first one, keeps.start second two, keeps.stop first one, keeps.stop second two]
    exact apart
  case nested =>
    intro fragment member inner
    obtain ⟨extent, outer, isOuter, inside, starts, stops, smallest⟩ := layers.nested fragment member inner
    have bound := fragments fragment member
    have around := fragments outer isOuter
    rw [keeps.start fragment bound, keeps.stop fragment bound, keeps.parent fragment bound]
    refine ⟨extent, outer, isOuter, inside, ?_, ?_, fun other isOther before behind => ?_⟩
    · rwa [keeps.start outer around]
    · rwa [keeps.stop outer around]
    · have known := fragments other isOther
      rw [keeps.start other known] at before
      rw [keeps.stop other known] at behind
      exact liesIn around known (smallest other isOther before behind)
  case reaches =>
    obtain ⟨block, member, atEnd⟩ := layers.reaches
    exact ⟨block, member, (keeps.start block (assigning.block_lt member)).symm ▸ atEnd⟩
  case sorted =>
    intro fragment
    rw [members]
    refine (layers.sorted fragment).imp_of_mem fun {first second} isFirst isSecond before => ?_
    rwa [keeps.start first (blocks first (assigning.placed fragment first isFirst).1),
      keeps.start second (blocks second (assigning.placed fragment second isSecond).1)]
  case homes =>
    intro block isDone before owner isOwner
    have bound := blocks block isDone
    rw [keeps.parent block bound] at isOwner
    rw [keeps.start block bound] at before ⊢
    have around : owner < context.graph.size := by
      obtain ⟨fragment, member, listed⟩ := assigning.owned block isDone
      cases isOwner.symm.trans (assigning.placed fragment block listed).2
      exact fragments owner member
    obtain ⟨spans, smallest⟩ := layers.homes block isDone before owner isOwner
    refine ⟨?_, fun other isOther covers => ?_⟩
    · unfold Spans
      rwa [keeps.start owner around, keeps.stop owner around]
    · have known := fragments other isOther
      unfold Spans at covers
      rw [keeps.start other known, keeps.stop other known] at covers
      exact liesIn around known (smallest other isOther covers)

theorem Layers.stop_eq {code : Code} (layers : Layers code context done) {fragment : NodeId}
    (member : fragment ∈ context.fragments) (outermost : (context.graph.node fragment).parent = none) :
    (context.graph.node fragment).stop = code.length := by
  obtain ⟨root, _, isRoot, _, _, stop, _⟩ := layers.rooted
  by_cases here : context.root = some fragment
  · cases isRoot.symm.trans here
    exact stop
  · obtain ⟨_, outer, _, inside, _⟩ := layers.nested fragment member here
    exact absurd (outermost.symm.trans inside) (by simp)

theorem Layers.start_le {code : Code} (layers : Layers code context done) {fragment outer : NodeId}
    (member : fragment ∈ context.fragments) (inside : (context.graph.node fragment).parent = some outer) :
    (context.graph.node outer).start ≤ (context.graph.node fragment).start := by
  obtain ⟨root, _, isRoot, _, _, _, outermost⟩ := layers.rooted
  by_cases here : context.root = some fragment
  · cases isRoot.symm.trans here
    exact absurd (outermost.symm.trans inside) (by simp)
  · obtain ⟨_, other, _, same, starts, _⟩ := layers.nested fragment member here
    cases inside.symm.trans same
    exact Nat.le_of_lt starts

theorem Assigning.start_lt (assigning : Assigning source context owner previous done (block :: rest) coming stack)
    {id : NodeId} (isDone : id ∈ done) : (context.graph.node id).start < (context.graph.node block).start := by
  have increasing := assigning.increasing
  rw [Context.Increasing, assigning.blocks] at increasing
  exact (List.pairwise_append.mp increasing).2.2 id isDone block (.head _)

theorem Layered.arrives (layered : Layered source.code context done (block :: rest) stack)
    (assigning : Assigning source context owner previous done (block :: rest) coming stack) :
    Arrived source.code context done
      (closeFragments context.graph (context.graph.node block).start stack) block := by
  generalize isClosed : closeFragments context.graph (context.graph.node block).start stack = closed
  have suffix : closed <:+ stack := isClosed ▸ closeFragments_suffix context.graph _ stack
  have among (id : NodeId) (member : id ∈ closed) : id ∈ context.fragments :=
    assigning.among id (suffix.subset member)
  have some : closed ≠ [] := isClosed ▸ closeFragments_ne_nil assigning.stacked.ne_nil
  have stacked := assigning.stacked.of_suffix suffix some
  have behind {top : NodeId} (isTop : closed.head? = .some top)
      (nested : (context.graph.node top).parent ≠ none) :
      (context.graph.node block).start < (context.graph.node top).stop :=
    lt_stop_of_closeFragments assigning.stacked (isClosed ▸ isTop) nested
  refine { layered.toLayers with
    begun := fun fragment member => ?_, passed := fun fragment member => ?_, inmost := fun top isTop => ?_,
    goesOn := fun top isTop inside => ?_, ended := fun atEnd => ?_ }
  · rcases layered.begun fragment member with zero | before
    · omega
    · exact Nat.le_of_lt (before block (.head _))
  · rcases layered.passed fragment member with isOpen | ended
    · exact isClosed ▸ mem_closeFragments_or isOpen
    · exact .inr (ended block (.head _))
  · obtain ⟨below, rfl⟩ := List.head?_eq_some_iff.mp isTop
    exact stacked.liesIn fun id member outer inside => layered.start_le (among id member) inside
  · by_cases outermost : (context.graph.node top).parent = none
    · rwa [layered.stop_eq (among top (List.mem_of_head? isTop)) outermost]
    · exact behind isTop outermost
  · obtain ⟨top, below, rfl⟩ := List.exists_cons_of_ne_nil some
    have bounded := layered.bounded top (among top (.head _))
    by_contra more
    have := behind rfl (stacked.parent_ne_none.mpr more)
    omega

/-- A function that starts at the block lies in the innermost one that is open there. -/
theorem Arrived.opens (arrived : Arrived source.code context done stack block) {found : List NodeId}
    (assigning : Assigning source context owner previous done (block :: rest) coming found)
    {current before : NodeId} {child : ChildEntry} {stop : Nat} {graph : FlowGraph}
    (opens : Opens context.graph graph current before child stop) (isCurrent : stack.head? = some current)
    (among : ∀ id ∈ stack, id ∈ context.fragments) (starts : child.start = (context.graph.node block).start)
    (fresh : ∀ fragment ∈ context.fragments,
      (context.graph.node fragment).start < (context.graph.node block).start)
    (beyond : (context.graph.node block).start < stop) (within : stop ≤ (context.graph.node current).stop) :
    Arrived source.code { context with graph, fragments := context.fragments ++ [context.graph.size] } done
      (context.graph.size :: stack) block := by
  have keeps := opens.keeps
  have isFragment := among current (List.mem_of_head? isCurrent)
  have isBlock : block ∈ context.blocks := by simp [assigning.blocks]
  have inDone (id : NodeId) (isDone : id ∈ done) : id ∈ context.blocks :=
    assigning.blocks ▸ List.mem_append_left _ isDone
  have later := arrived.toLayers.later assigning keeps opens.members
  have here : (graph.node block).start = (context.graph.node block).start :=
    keeps.start block (assigning.block_lt isBlock)
  have start : (graph.node context.graph.size).start = (graph.node block).start := by
    rw [opens.range.1, starts, here]
  have first (fragment : NodeId) (member : fragment ∈ context.fragments) :
      (graph.node fragment).start < (graph.node block).start := by
    rw [keeps.start fragment (assigning.fragment_lt member), here]
    exact fresh fragment member
  have beyond : (graph.node block).start < (graph.node context.graph.size).stop := by
    rwa [here, opens.range.2]
  have within : (graph.node context.graph.size).stop ≤ (graph.node current).stop := by
    rwa [opens.range.2, keeps.stop current (assigning.fragment_lt isFragment)]
  have inmost (fragment : NodeId) (member : fragment ∈ stack) : graph.LiesIn current fragment := by
    have bound := assigning.fragment_lt (among fragment member)
    have around := assigning.fragment_lt isFragment
    unfold LiesIn
    rw [keeps.start current around, keeps.start fragment bound, keeps.stop current around,
      keeps.stop fragment bound]
    exact arrived.inmost current isCurrent fragment member
  have passed (fragment : NodeId) (member : fragment ∈ context.fragments) :
      fragment ∈ stack ∨ (graph.node fragment).stop ≤ (graph.node block).start := by
    rw [here, keeps.stop fragment (assigning.fragment_lt member)]
    exact arrived.passed fragment member
  have bounded := Nat.le_trans within (later.bounded current isFragment)
  -- What has not ended at the block is open there, so it lies around the current function and the new one.
  constructor
  case toLayers =>
    constructor
    case rooted =>
      obtain ⟨root, nested, isRoot, isList, known⟩ := later.rooted
      have isList : context.fragments = root :: nested := isList
      exact ⟨root, nested ++ [context.graph.size], isRoot, by simp [isList], known⟩
    case bounded =>
      exact List.forall_mem_append.mpr ⟨later.bounded, List.forall_mem_singleton.mpr bounded⟩
    case layers =>
      refine List.pairwise_append.mpr ⟨later.layers, List.pairwise_singleton _ _, fun fragment member new isNew => ?_⟩
      rw [List.mem_singleton.mp isNew]
      refine ⟨start ▸ first fragment member, ?_⟩
      rcases passed fragment member with isOpen | ended
      · exact .inr (Nat.le_trans within (inmost fragment isOpen).2)
      · exact .inl (start ▸ ended)
    case nested =>
      intro fragment member inner
      rcases List.mem_append.mp member with old | new
      · obtain ⟨extent, outer, isOuter, inside, starts, stops, smallest⟩ := later.nested fragment old inner
        refine ⟨extent, outer, List.mem_append_left _ isOuter, inside, starts, stops, fun other isOther before => ?_⟩
        rcases List.mem_append.mp isOther with known | new
        · exact smallest other known before
        · rw [List.mem_singleton.mp new, start] at before
          exact absurd before (Nat.lt_asymm (first fragment old))
      · rw [List.mem_singleton.mp new, start]
        refine ⟨beyond, current, List.mem_append_left _ isFragment, opens.parent, first current isFragment, within,
          fun other isOther before behind => ?_⟩
        rcases List.mem_append.mp isOther with known | new
        · refine inmost other ((passed other known).resolve_right (Nat.not_le.mpr behind))
        · rw [List.mem_singleton.mp new, start] at before
          exact absurd before (Nat.lt_irrefl _)
    case reaches => exact later.reaches
    case sorted => exact later.sorted
    case homes =>
      -- The new function starts behind the blocks that are done.
      intro id isDone before owner isOwner
      obtain ⟨spans, smallest⟩ := later.homes id isDone before owner isOwner
      refine ⟨spans, fun other isOther covers => ?_⟩
      rcases List.mem_append.mp isOther with known | new
      · exact smallest other known covers
      · rw [List.mem_singleton.mp new, Spans, start, here, keeps.start id (assigning.block_lt (inDone id isDone))]
          at covers
        exact absurd (assigning.start_lt isDone) (Nat.not_lt.mpr covers.1)
  case begun =>
    intro fragment member
    rcases List.mem_append.mp member with old | new
    · exact Nat.le_of_lt (first fragment old)
    · rw [List.mem_singleton.mp new]
      exact Nat.le_of_eq start
  case passed =>
    intro fragment member
    rcases List.mem_append.mp member with old | new
    · exact (passed fragment old).imp_left (.tail _)
    · exact .inl (List.mem_singleton.mp new ▸ .head _)
  case inmost =>
    rintro _ ⟨⟩ fragment member
    rcases List.mem_cons.mp member with rfl | old
    · exact .refl graph _
    · refine ⟨?_, Nat.le_trans within (inmost fragment old).2⟩
      exact start ▸ Nat.le_of_lt (first fragment (among fragment old))
  case goesOn =>
    rintro _ ⟨⟩ _
    exact beyond
  case ended =>
    intro atEnd
    have atEnd : source.code.length ≤ (graph.node block).start := atEnd
    omega

theorem Arrived.own (arrived : Arrived source.code context done stack block)
    (assigning : Assigning source context owner none done (block :: rest) coming stack)
    (isTop : stack.head? = some top) :
    Layered source.code { context with graph := ownBlock context.graph top block } (done ++ [block]) rest stack := by
  have isBlock : block ∈ context.blocks := by simp [assigning.blocks]
  have bound := assigning.block_lt isBlock
  have parent (id : NodeId) (apart : block ≠ id) :
      ((ownBlock context.graph top block).node id).parent = (context.graph.node id).parent := by
    rw [parent_ownBlock bound, if_neg apart]
  have isFragment := assigning.among top (List.mem_of_head? isTop)
  have apart (fragment : NodeId) (member : fragment ∈ context.fragments) : block ≠ fragment :=
    (assigning.apart member isBlock).symm
  have before (id : NodeId) (isDone : id ∈ done) := assigning.start_lt isDone
  constructor
  case toLayers =>
    constructor
    case rooted =>
      obtain ⟨root, nested, isRoot, isList, start, stop, outermost⟩ := arrived.rooted
      refine ⟨root, nested, isRoot, isList, (start_ownBlock top block root).trans start,
        (stop_ownBlock top block root).trans stop, (parent root (apart root ?_)).trans outermost⟩
      simp [isList]
    case bounded => simpa only [stop_ownBlock] using arrived.bounded
    case layers => simpa only [start_ownBlock, stop_ownBlock] using arrived.layers
    case nested =>
      intro fragment member inner
      simp only [LiesIn, start_ownBlock, stop_ownBlock, parent fragment (apart fragment member)]
      exact arrived.nested fragment member inner
    case reaches => simpa only [start_ownBlock] using arrived.reaches
    case sorted =>
      intro fragment
      simp only [start_ownBlock]
      rcases fragmentBlocks_ownBlock context.graph top block fragment with same | ⟨_, more⟩
      · exact same ▸ arrived.sorted fragment
      · rw [more]
        refine List.pairwise_append.mpr ⟨arrived.sorted fragment, List.pairwise_singleton _ _, fun id member new isNew => ?_⟩
        rw [List.mem_singleton.mp isNew]
        exact before id (assigning.placed fragment id member).1
    case homes =>
      intro id isDone
      simp only [Spans, LiesIn, start_ownBlock, stop_ownBlock]
      intro inside owner isOwner
      rcases List.mem_append.mp isDone with old | new
      · rw [parent id (assigning.ne_of_mem_done old (.head _)).symm] at isOwner
        exact arrived.homes id old inside owner isOwner
      · rw [List.mem_singleton.mp new] at inside isOwner ⊢
        rw [parent_ownBlock bound, if_pos rfl] at isOwner
        cases isOwner
        -- A function around the block is open there, and the innermost one lies in it.
        refine ⟨⟨arrived.begun top isFragment, arrived.goesOn top isTop inside⟩, fun other isOther spans => ?_⟩
        exact arrived.inmost top isTop other
          ((arrived.passed other isOther).resolve_right (Nat.not_le.mpr spans.2))
  case begun =>
    simp only [start_ownBlock]
    exact fun fragment member => .inr fun id isLater =>
      Nat.lt_of_le_of_lt (arrived.begun fragment member) (assigning.later id isLater)
  case passed =>
    simp only [start_ownBlock, stop_ownBlock]
    exact fun fragment member => (arrived.passed fragment member).imp_right fun ended id isLater =>
      Nat.le_trans ended (Nat.le_of_lt (assigning.later id isLater))
  case ended =>
    simp only [start_ownBlock]
    intro id isDone atEnd
    rcases List.mem_append.mp isDone with old | new
    · exact arrived.ended (Nat.le_trans atEnd (Nat.le_of_lt (before id old)))
    · exact arrived.ended (List.mem_singleton.mp new ▸ atEnd)

theorem Layered.step {next : Context} {found : List NodeId} {current : NodeId}
    (assigning : Assigning source context owner previous done (block :: rest) coming stack)
    (layered : Layered source.code context done (block :: rest) stack)
    (isCurrent :
      (closeFragments context.graph (context.graph.node block).start stack).head? = some current)
    (reaching : Reaching source context next previous
      (closeFragments context.graph (context.graph.node block).start stack) current block found)
    (isTop : found.head? = some top) {owns : NodeId → Option NodeId} {left : List NodeId}
    (reached : Assigning source next owns none done (block :: rest) left found) :
    Layered source.code { next with graph := ownBlock next.graph top block } (done ++ [block]) rest found := by
  have arrived := layered.arrives assigning
  cases reaching with
  | stays same _ =>
    subst same
    exact arrived.own reached isTop
  | opens before child stop _ isChild isPrevious _ beyond within opened =>
    subst opened
    have isBefore : before ∈ context.blocks :=
      assigning.blocks ▸ List.mem_append_left _ (assigning.last before isPrevious)
    have suffix := closeFragments_suffix context.graph (context.graph.node block).start stack
    have isStart := List.find?_some isChild
    simp only [Bool.and_eq_true, beq_iff_eq, bne_iff_ne, ne_eq] at isStart
    refine (arrived.opens assigning (opens_openedGraph (assigning.block_lt isBefore)) isCurrent
      (fun id member => assigning.among id (suffix.subset member)) isStart.1 (fun fragment member => ?_) beyond
      within).own reached isTop
    rcases layered.begun fragment member with zero | earlier
    · omega
    · exact earlier block (.head _)

end Recovery

end Structuring
