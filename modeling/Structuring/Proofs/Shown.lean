import Structuring.Proofs.Slots

/-! What the tree of a finished graph shows.

A node is shown once for every descent to it. Where all that is shown is directly inside, a descent
takes the way that leads up from a node the other way round, and the parts on it decide.
-/

namespace Structuring

open Bytecode Recovery FlowGraph

namespace FlowGraph

/-- Whether a slot shows what is in it and nothing after it. -/
def Slot.isEnd : Slot → Bool
  | .tail | .condition => true
  | _ => false

def Slot.isShown : Slot → Bool
  | .after | .incrementor | .breakBlock | .whenFalse => false
  | _ => true

/-- What is in a slot is somewhere else, because it starts outside or a newer structure has taken it in. -/
def Displaced (graph : FlowGraph) (owner : NodeId) (slot : Slot) (ref : NodeId) : Prop :=
  (graph.node ref).parent ≠ some owner ∧
    (slot.isLoose = true ∧
        (graph.node ref).startsWithin (graph.node owner).start (graph.node owner).stop = false ∨
      ∃ later, (graph.node ref).parent = some later ∧ graph.Taken owner ref later)

/-- Nothing is displaced from some of the slots. -/
def Settled (graph : FlowGraph) (among : Slot → Bool) : Prop :=
  ∀ owner slot ref, (slot, ref) ∈ (graph.node owner).kind.slots → among slot = true →
    ¬graph.Displaced owner slot ref

variable {graph : FlowGraph} {owner ref : NodeId} {slot : Slot} {among : Slot → Bool}

theorem Slot.namesBlock_of_isShown (shown : slot.isShown = true) : slot.namesBlock = false := by
  cases slot <;> simp_all [isShown, namesBlock]

theorem Slot.isShown_of_isEnd (ends : slot.isEnd = true) : slot.isShown = true := by
  cases slot <;> simp_all [isShown, isEnd]

/-- In a tidy graph there is no other way for what a structure shows to be outside of it. -/
theorem Settled.inside (settled : graph.Settled among) {every : Prop} (tidy : graph.Tidy every)
    (shown : slot.isShown = true) (chosen : among slot = true)
    (member : (slot, ref) ∈ (graph.node owner).kind.slots) : graph.Inside ref owner := by
  have stays := settled owner slot ref member chosen
  by_cases inside : (graph.node ref).parent = some owner
  · exact inside
  refine ((tidy.belongs owner slot ref member).direct_or_taken (Slot.namesBlock_of_isShown shown)
    fun loose => ?_).resolve_right fun taken => stays ⟨inside, .inr taken⟩
  exact Bool.eq_true_of_not_eq_false fun outside => stays ⟨inside, .inl ⟨loose, outside⟩⟩

end FlowGraph

namespace Outline

variable {graph : FlowGraph} {top outer id other : NodeId} {index : Nat} {path : List (Nat × NodeId)}

/-! The last step of a descent -/

theorem Descent.extend (descent : Descent graph top path outer) (step : Shows graph outer index id) :
    Descent graph top (path ++ [(index, id)]) id := by
  induction descent with
  | here _ => exact .down step (.here id)
  | down first _ ih => exact .down first (ih step)

theorem Descent.last (descent : Descent graph top path id) :
    path = [] ∧ id = top ∨ ∃ before index outer, path = before ++ [(index, id)] ∧
      Descent graph top before outer ∧ Shows graph outer index id := by
  induction descent with
  | here _ => exact .inl ⟨rfl, rfl⟩
  | @down top child id index path first _ ih =>
    right
    rcases ih with ⟨rfl, rfl⟩ | ⟨before, last, outer, rfl, earlier, step⟩
    · exact ⟨[], index, top, rfl, .here top, first⟩
    · exact ⟨(index, child) :: before, last, outer, rfl, .down first earlier, step⟩

/-! One descent -/

/-- A structure shows a node in just one of its parts. -/
def ShowsOnce (graph : FlowGraph) (outer id : NodeId) : Prop := ∃! index, Shows graph outer index id

/-- If a way down is the only one, so is every beginning of it, and every step. -/
theorem chain_of_one_descent (only : ∃! path, Descent graph top path id) :
    Relation.ReflTransGen (ShowsOnce graph) top id := by
  obtain ⟨path, descent, only⟩ := only
  dsimp only at descent only
  induction isLength : path.length generalizing path id with
  | zero =>
    cases List.length_eq_zero_iff.mp isLength
    cases descent
    exact .refl
  | succ length ih =>
    rcases descent.last with ⟨rfl, _⟩ | ⟨before, index, outer, rfl, earlier, step⟩
    · cases isLength
    refine .tail (ih before earlier (fun other reaches => ?_) (by simpa using isLength))
      ⟨index, step, fun part isShown => ?_⟩
    · exact List.append_cancel_right (only _ (reaches.extend step))
    · simpa using only _ (earlier.extend isShown)

section

variable (direct : ∀ outer index id, Shows graph outer index id → graph.Inside id outer)

include direct

theorem Descent.inside (descent : Descent graph top path id) :
    Relation.ReflTransGen graph.Inside id top := by
  induction descent with
  | here _ => exact .refl
  | down first _ ih => exact ih.tail (direct _ _ _ first)

theorem Descent.not_shows_top (rooted : graph.Rooted) (descent : Descent graph top path outer) :
    ¬Shows graph outer index top :=
  fun step => rooted.not_inside_itself top (.head' (direct _ _ _ step) (descent.inside direct))

/-- Where all that is shown is directly inside, a node with one descent is one that every structure
around it shows once. -/
theorem one_descent_iff (rooted : graph.Rooted) :
    (∃! path, Descent graph top path id) ↔ Relation.ReflTransGen (ShowsOnce graph) top id := by
  refine ⟨chain_of_one_descent, fun chain => ?_⟩
  induction chain with
  | refl =>
    refine ⟨[], .here top, fun path descent => ?_⟩
    rcases descent.last with ⟨isEmpty, _⟩ | ⟨_, _, _, _, earlier, step⟩
    · exact isEmpty
    · exact absurd step (earlier.not_shows_top direct rooted)
  | @tail outer id _ once ih =>
    obtain ⟨path, descent, only⟩ := ih
    obtain ⟨index, step, alone⟩ := once
    refine ⟨path ++ [(index, id)], descent.extend step, fun other reaches => ?_⟩
    rcases reaches.last with ⟨_, rfl⟩ | ⟨before, last, around, rfl, earlier, shows⟩
    · exact absurd step (descent.not_shows_top direct rooted)
    cases Option.some.inj ((direct _ _ _ shows).symm.trans (direct _ _ _ step))
    rw [only before earlier, alone last shows]

end

/-! Nodes that are reached -/

/-- A node that is come to from a structure through the slots it shows and along first successors,
but not past a node that is shown without what follows it. -/
inductive Reached (graph : FlowGraph) (top : NodeId) : NodeId → Prop
  | top : Reached graph top top
  | slot {owner ref : NodeId} {slot : Slot} (reached : Reached graph top owner)
      (member : (slot, ref) ∈ (graph.node owner).kind.slots) (shown : slot.isShown = true) :
      Reached graph top ref
  | next {id other : NodeId} (reached : Reached graph top id) (apart : id ≠ top)
      (goesOn : ∀ owner slot, (slot, id) ∈ (graph.node owner).kind.slots → slot.isEnd = false)
      (first : (graph.node id).successors.head? = some other) : Reached graph top other

theorem shows_body {loop : Loop} (kind : (graph.node top).kind = .loop loop) (isBody : loop.body = some id)
    (inside : graph.Inside id top) : Shows graph top 1 id := by
  refine .body kind ⟨id, isBody, .start inside ?_⟩
  split
  · simp
  · next apart => simpa using apart

theorem exists_shows_tail {loop : Loop} (kind : (graph.node top).kind = .loop loop) :
    ∃ index, Shows graph top index loop.tail := by
  by_cases onHead : OnHead graph top loop loop.tail
  · exact ⟨0, .head kind onHead⟩
  by_cases onBody : OnBody graph top loop loop.tail
  · exact ⟨1, .body kind onBody⟩
  · exact ⟨2, .tail kind onHead onBody⟩

theorem exists_shows_of_mem_slots {slot : Slot} (member : (slot, id) ∈ (graph.node top).kind.slots)
    (shown : slot.isShown = true) (inside : graph.Inside id top) : ∃ index, Shows graph top index id := by
  have run : OnRun graph top none id id := .start inside nofun
  cases kind : (graph.node top).kind with
  | fragment parts =>
    obtain ⟨_, starts, ⟨⟩⟩ := List.mem_map.mp (kind ▸ member)
    exact ⟨0, .entry kind (Option.mem_toList.mp starts) run⟩
  | loop loop =>
    simp only [kind, Kind.slots, List.mem_cons, List.mem_append, List.mem_map, Option.mem_toList,
      Prod.mk.injEq] at member
    rcases member with ⟨rfl, rfl⟩ | ⟨rfl, rfl⟩ | ⟨rfl, rfl⟩ | ⟨_, isBody, rfl, rfl⟩ | named
    · by_cases isBody : loop.body = some loop.head
      · exact ⟨1, shows_body kind isBody inside⟩
      · exact ⟨0, .head kind ⟨isBody, .start inside (Ne.symm isBody)⟩⟩
    · exact exists_shows_tail kind
    · cases shown
    · exact ⟨1, shows_body kind isBody inside⟩
    · cases isShape : loop.shape <;>
        simp only [isShape, LoopShape.slots, List.mem_map, List.not_mem_nil, Prod.mk.injEq] at named
      all_goals
        obtain ⟨_, _, rfl, _⟩ := named
        cases shown
  | chain parts =>
    obtain ⟨_, among, ⟨⟩⟩ := List.mem_map.mp (kind ▸ member)
    obtain ⟨index, starts⟩ := List.getElem?_of_mem among
    exact ⟨index, .operand kind starts run⟩
  | conditional parts =>
    simp only [kind, Kind.slots, List.mem_cons, List.mem_map, Option.mem_toList, Prod.mk.injEq] at member
    rcases member with ⟨_, rfl⟩ | ⟨_, rfl⟩ | ⟨rfl, _⟩ | ⟨_, starts, _, rfl⟩
    · exact ⟨0, .condition kind⟩
    · exact ⟨1, .whenTrue kind run⟩
    · cases shown
    · exact ⟨2, .otherwise kind starts run⟩
  | switch parts =>
    simp only [kind, Kind.slots, List.mem_cons, List.mem_append, List.mem_map, Option.mem_toList,
      Prod.mk.injEq] at member
    rcases member with ⟨_, rfl⟩ | ⟨_, starts, _, rfl⟩ | ⟨_, starts, _, rfl⟩
    · exact ⟨0, .cases kind run⟩
    · exact ⟨1, .switchBody kind starts run⟩
    · exact ⟨2, .endCases kind starts run⟩
  | staticInit head =>
    cases List.mem_singleton.mp (kind ▸ member)
    exact ⟨0, .initializer kind run⟩
  | block _ | caseJump | caseLabel _ | sentinel _ =>
    rw [kind] at member
    cases member

theorem exists_shows_next (isShown : Shows graph top index id)
    (goesOn : ∀ owner slot, (slot, id) ∈ (graph.node owner).kind.slots → slot.isEnd = false)
    (first : (graph.node id).successors.head? = some other) (inside : graph.Inside other top) :
    ∃ index, Shows graph top index other := by
  have onward {start : NodeId} (run : OnRun graph top none start id) : OnRun graph top none start other :=
    run.next first inside nofun
  cases isShown with
  | entry kind starts run => exact ⟨_, .entry kind starts (onward run)⟩
  | @head loop _ kind run =>
    by_cases isBody : loop.body = some other
    · exact ⟨1, shows_body kind isBody inside⟩
    · exact ⟨0, .head kind ⟨run.1, run.2.next first inside (Ne.symm isBody)⟩⟩
  | @body loop _ kind run =>
    obtain ⟨body, isBody, run⟩ := run
    by_cases isTail : other = loop.tail
    · exact isTail ▸ exists_shows_tail kind
    · refine ⟨1, .body kind ⟨body, isBody, run.next first inside ?_⟩⟩
      split
      · simp
      · simpa using isTail
  | tail kind _ _ => exact absurd (goesOn top .tail (by simp [kind, Kind.slots])) (by simp [Slot.isEnd])
  | operand kind starts run => exact ⟨_, .operand kind starts (onward run)⟩
  | condition kind =>
    exact absurd (goesOn top .condition (by simp [kind, Kind.slots])) (by simp [Slot.isEnd])
  | whenTrue kind run => exact ⟨_, .whenTrue kind (onward run)⟩
  | otherwise kind starts run => exact ⟨_, .otherwise kind starts (onward run)⟩
  | cases kind run => exact ⟨_, .cases kind (onward run)⟩
  | switchBody kind starts run => exact ⟨_, .switchBody kind starts (onward run)⟩
  | endCases kind starts run => exact ⟨_, .endCases kind starts (onward run)⟩
  | initializer kind run => exact ⟨_, .initializer kind (onward run)⟩

theorem Shows.inside_or_slot (isShown : Shows graph outer index id) :
    (graph.node id).parent = some outer ∨ (Slot.tail, id) ∈ (graph.node outer).kind.slots ∨
      (Slot.condition, id) ∈ (graph.node outer).kind.slots := by
  rcases isShown.inside_or with inside | ⟨loop, kind, rfl, _⟩ | ⟨parts, kind, rfl⟩
  · exact .inl inside
  · simp [kind, Kind.slots]
  · simp [kind, Kind.slots]

/-- In a tidy graph whatever is shown is directly inside, if no tail and no condition is displaced. -/
theorem Shows.inside {every : Prop} (tidy : graph.Tidy every) (settled : graph.Settled Slot.isEnd)
    (isShown : Shows graph outer index id) : graph.Inside id outer := by
  rcases isShown.inside_or_slot with inside | tail | condition
  · exact inside
  · exact settled.inside tidy rfl rfl tail
  · exact settled.inside tidy rfl rfl condition

/-- If no edge leaves its level and nothing shown is displaced, there is a descent to what is reached. -/
theorem Reached.exists_descent (tidy : graph.Tidy True) (settled : graph.Settled Slot.isShown)
    (reached : Reached graph top id) : ∃ path, Descent graph top path id := by
  induction reached with
  | top => exact ⟨[], .here top⟩
  | slot _ member shown ih =>
    obtain ⟨path, descent⟩ := ih
    obtain ⟨index, step⟩ := exists_shows_of_mem_slots member shown (settled.inside tidy shown shown member)
    exact ⟨_, descent.extend step⟩
  | @next id other _ apart goesOn first ih =>
    obtain ⟨path, descent⟩ := ih
    rcases descent.last with ⟨_, isTop⟩ | ⟨before, index, outer, _, earlier, step⟩
    · exact absurd isTop apart
    -- The edge stays on the level of the node it leaves, and the run goes on there.
    have inside := step.inside tidy fun owner slot ref member ends =>
      settled owner slot ref member (Slot.isShown_of_isEnd ends)
    have level : (graph.node other).parent = (graph.node id).parent :=
      Classical.byContradiction fun strays =>
        tidy.stays id (.inl trivial) ⟨other, List.mem_of_mem_head? first, strays⟩
    obtain ⟨index, step⟩ := exists_shows_next step goesOn first (level.trans inside)
    exact ⟨_, earlier.extend step⟩

/-! Live blocks -/

/-- A node that control comes to from the entry of the outermost fragment, where a fragment on the
way is entered too. -/
inductive Live (context : Context) : NodeId → Prop
  | root {root entry : NodeId} {parts : Fragment} (isRoot : context.root = some root)
      (kind : (context.graph.node root).kind = .fragment parts) (enters : parts.entry = some entry) :
      Live context entry
  | next {id other : NodeId} (live : Live context id)
      (edge : other ∈ (context.graph.node id).successors) : Live context other
  | enter {id entry : NodeId} {parts : Fragment} (live : Live context id)
      (kind : (context.graph.node id).kind = .fragment parts) (enters : parts.entry = some entry) :
      Live context entry

theorem Live.of_entry {context : Context} (isRoot : context.root = some top)
    (enters : (Slot.entry, id) ∈ (context.graph.node top).kind.slots) : Live context id := by
  cases kind : (context.graph.node top).kind with
  | fragment parts =>
    obtain ⟨_, isEntry, ⟨⟩⟩ := List.mem_map.mp (kind ▸ enters)
    exact .root isRoot kind (Option.mem_toList.mp isEntry)
  | loop parts => cases isShape : parts.shape <;> simp [kind, Kind.slots, isShape, LoopShape.slots] at enters
  | _ => simp [kind, Kind.slots] at enters

/-- The tree of an entry leaves out the nodes that no descent from the outermost fragment comes to,
and shows exactly once those that exactly one descent comes to. A descent goes from a structure to
its children, and else only to the tail of a loop or to a condition.

After a run, a live block that still holds instructions is shown exactly once if and only if each
structure around it shows the next in one part only, unless a tail or a condition is displaced. If
nothing shown is displaced and no edge left its level at the start, a live block is shown when it
is reached. -/
theorem shown_once_iff_one_descent (symbols : Symbols) (context : Context) (tree : Tree)
    (exported : export? symbols context = some tree) :
    ∃ root, context.root = some root ∧
      (∀ id, (id ∈ tree.ids ↔ ∃ path, Descent context.graph root path id) ∧
        (tree.ids.count id = 1 ↔ ∃! path, Descent context.graph root path id)) ∧
      (∀ top index id, Shows context.graph top index id →
        (context.graph.node id).parent = some top ∨
          (∃ loop, (context.graph.node top).kind = .loop loop ∧ loop.tail = id ∧
            ¬OnHead context.graph top loop id ∧ ¬OnBody context.graph top loop id) ∨
          ∃ parts, (context.graph.node top).kind = .conditional parts ∧ parts.condition = id) ∧
      ∀ name listing source stopped laid outcome final block,
        Assembly.assemble name listing = .ok source.code →
        (run source { dumpAfter := some Pass.fragments.name } Pass.standard).run {} = .ok stopped laid →
        structureEntry source = .ok outcome final → final.context = context →
        Live laid.context block → (context.graph.node block).instructions ≠ [] →
        (context.graph.Settled Slot.isEnd →
          (tree.ids.count block = 1 ↔ Relation.ReflTransGen (ShowsOnce context.graph) root block)) ∧
        (laid.graph.Closed → context.graph.Settled Slot.isShown → Reached context.graph root block →
          block ∈ tree.ids) := by
  obtain ⟨root, isRoot, exported⟩ := Option.bind_eq_some_iff.mp exported
  refine ⟨root, isRoot, fun id => ids_of_exportNode? exported, fun top index id => Shows.inside_or, ?_⟩
  rintro name listing source stopped laid outcome final block assembled lays done rfl live holds
  have ordered : InOrder source.code.instructions := Assembly.inOrder_of_assemble assembled
  have shown : (block ∈ tree.ids ↔ _) ∧ _ := ids_of_exportNode? exported
  refine ⟨fun settled => ?_, fun closed settled reached => ?_⟩
  · have tidied := tidied_of_run ordered (by simp) done
    exact shown.2.trans (one_descent_iff (fun outer index id => Shows.inside tidied.tidy settled) tidied.rooted)
  · have tidied := tidied_of_closed ordered (by simp) done lays closed
    exact shown.1.mpr (reached.exists_descent tidied.tidy settled)

def testedLoop : String :=
  ":[again]\npush.v self.a\nbf [end]\npush.v self.x\npopz.v\nb [again]\n:[end]\nexit.i"

/-- The body of a loop is shown once, as is the loop. -/
theorem shown_once_iff_one_descent_testedLoop :
    ∃ code stopped laid outcome final tree root, Assembly.assemble "entry" testedLoop = .ok code ∧
      (run ⟨code, .all⟩ { dumpAfter := some Pass.fragments.name } Pass.standard).run {} = .ok stopped laid ∧
      laid.graph.Closed ∧ Live laid.context 1 ∧ structureEntry ⟨code, .all⟩ = .ok outcome final ∧
      export? code.symbols final.context = some tree ∧ final.root = some root ∧
      (final.graph.node 1).instructions ≠ [] ∧ final.graph.Settled Slot.isShown ∧
      Reached final.graph root 1 ∧ 1 ∈ tree.ids ∧ (∃! path, Descent final.graph root path 1) ∧
      Relation.ReflTransGen (ShowsOnce final.graph) root 1 := by
  obtain ⟨code, stopped, laid, assembled, lays, closed, ⟨top, isTop, enters⟩, edge⟩ :=
    exists_of_evaluates "entry" testedLoop
      (fun code => (run ⟨code, .all⟩ { dumpAfter := some Pass.fragments.name } Pass.standard).run {})
      (fun _ _ laid => laid.graph.Closed ∧
        (∃ root ∈ laid.root, (Slot.entry, 0) ∈ (laid.graph.node root).kind.slots) ∧
        1 ∈ (laid.graph.node 0).successors) (by decide +kernel)
  obtain ⟨other, outcome, final, again, done, ⟨tree, exported, once⟩, holds, direct, ⟨bottom, isBottom, loop⟩, body⟩ :=
    exists_of_evaluates "entry" testedLoop (structureEntry ⟨·, .all⟩)
      (fun code _ final => (∃ tree ∈ export? code.symbols final.context, tree.ids.count 1 = 1) ∧
        (final.graph.node 1).instructions ≠ [] ∧
        (∀ owner ∈ final.graph.ids, ∀ filled ∈ (final.graph.node owner).kind.slots,
          (final.graph.node filled.2).parent = some owner) ∧
        (∃ root ∈ final.root, (Slot.entry, 6) ∈ (final.graph.node root).kind.slots) ∧
        (Slot.body, 1) ∈ (final.graph.node 6).kind.slots) (by decide +kernel)
  cases Except.ok.inj (again.symm.trans assembled)
  obtain ⟨root, isRoot, shown, -, ofRun⟩ := shown_once_iff_one_descent code.symbols final.context tree exported
  cases Option.some.inj (isBottom.symm.trans isRoot)
  have live : Live laid.context 1 := (Live.of_entry isTop enters).next edge
  have reached : Reached final.graph bottom 1 := (Reached.top.slot loop rfl).slot body rfl
  have settled (among : Slot → Bool) : final.graph.Settled among := fun owner slot ref member _ displaced =>
    displaced.1 (direct owner (List.mem_range.mpr (owner_of_mem_slots member).lt) _ member)
  obtain ⟨onlyOne, isShown⟩ := ofRun _ _ ⟨code, .all⟩ _ _ _ _ 1 assembled lays done rfl live holds
  exact ⟨code, stopped, laid, outcome, final, tree, bottom, assembled, lays, closed, live, done, exported, isRoot,
    holds, settled _, reached, isShown closed (settled _) reached, (shown 1).2.mp once,
    (onlyOne (settled _)).mp once⟩

/-! Blocks that are lost or repeated -/

/-- Some block that was live before structures were built, and still holds instructions once they
all are, is so many times in the tree. -/
def ShowsLiveBlock (listing : String) (features : Features) (times : Nat) : Prop :=
  ∃ code outcome final tree block, Assembly.assemble "entry" listing = .ok code ∧
    structureEntry ⟨code, features⟩ = .ok outcome final ∧
    export? code.symbols final.context = some tree ∧
    Live (afterPasses ⟨code, features⟩ [.blocks, .fragments]).context block ∧
    (final.graph.node block).instructions ≠ [] ∧ tree.ids.count block = times

/-- It is enough to evaluate a run, for a block right behind the entry. -/
theorem ShowsLiveBlock.of_evaluated (entry block : NodeId) {listing : String} {features : Features}
    {times : Nat}
    (evaluated : evaluates "entry" listing (structureEntry ⟨·, features⟩) (fun code _ final =>
      let laid := (afterPasses ⟨code, features⟩ [.blocks, .fragments]).context
      (∃ root ∈ laid.root, (Slot.entry, entry) ∈ (laid.graph.node root).kind.slots) ∧
        block ∈ (laid.graph.node entry).successors ∧ (final.graph.node block).instructions ≠ [] ∧
        ∃ tree ∈ export? code.symbols final.context, tree.ids.count block = times) = true) :
    ShowsLiveBlock listing features times := by
  obtain ⟨code, outcome, final, assembled, done, ⟨root, isRoot, enters⟩, edge, holds, tree, exported, count⟩ :=
    exists_of_evaluates _ _ _ _ evaluated
  exact ⟨code, outcome, final, tree, block, assembled, done, exported,
    .next (.of_entry isRoot enters) edge, holds, count⟩

/-- A break in the place of the entry hides what follows its loop. The end of a loop that is also in a
switch is shown once in the switch and once as the tail of the loop. -/
theorem live_block_lost_or_repeated :
    ShowsLiveBlock leftLoop .all 0 ∧ ShowsLiveBlock loopedSwitch .all 2 :=
  ⟨.of_evaluated 0 2 (by decide +kernel), .of_evaluated 0 2 (by decide +kernel)⟩

end Outline

end Structuring
