import Mathlib.Data.List.Flatten
import Mathlib.Data.List.Nodup
import Mathlib.Data.List.Pairwise
import Structuring.Proofs.Places
import Structuring.Proofs.Provenance

/-! Leading a dispatch to labels.

Every comparison and the jump behind them ask for a label. Labels of one destination form a chain to it,
those of all destinations from the exit on one that ends. What is done to the graph meanwhile are a few
kinds of steps, and what holds of each of them holds of all.
-/

namespace Structuring.Recovery

open Bytecode FlowGraph

variable {rights : Rights} {session : Session} {switch source : NodeId} {location : SwitchLocation}
  {graph next : FlowGraph} {entries : List (NodeId × Bool)} {destinations : List Destination}
  {placement : LabelPlacement} {blocks aims : NodeId → Prop} {destination : Destination}

/-! Destinations -/

abbrev enter (destinations : List Destination) (entry : NodeId × Bool) : List Destination :=
  addLabel entry.1 entry.2 destinations

/-- Every destination has the labels that are asked for, in their order. -/
structure Grouped (entries : List (NodeId × Bool)) (destinations : List Destination) : Prop where
  distinct : (destinations.map (·.target)).Nodup
  targets : ∀ target, target ∈ destinations.map (·.target) ↔ target ∈ entries.map (·.1)
  labels : ∀ destination ∈ destinations,
    destination.labels = (entries.filter (·.1 = destination.target)).map (·.2)

theorem targets_addLabel (target : NodeId) (isDefault : Bool) (destinations : List Destination) :
    (addLabel target isDefault destinations).map (·.target) =
      if target ∈ destinations.map (·.target) then destinations.map (·.target)
      else destinations.map (·.target) ++ [target] := by
  fun_induction addLabel target isDefault destinations with
  | case1 => simp
  | case2 first rest same => simp [same]
  | case3 first rest other ih =>
    simp only [List.map_cons, ih, List.mem_cons, Ne.symm other, false_or]
    split <;> simp

theorem labels_of_mem_addLabel {target : NodeId} {isDefault : Bool}
    (distinct : (destinations.map (·.target)).Nodup)
    (member : destination ∈ addLabel target isDefault destinations) :
    (destination.target ≠ target ∧ destination ∈ destinations) ∨ destination.target = target ∧
      ((∃ old ∈ destinations, old.target = target ∧ destination.labels = old.labels ++ [isDefault]) ∨
        target ∉ destinations.map (·.target) ∧ destination.labels = [isDefault]) := by
  fun_induction addLabel target isDefault destinations with
  | case1 => simp_all
  | case2 first rest same =>
    rcases List.mem_cons.mp member with rfl | later
    · exact .inr ⟨same, .inl ⟨first, .head _, same, rfl⟩⟩
    · refine .inl ⟨fun again => (List.nodup_cons.mp distinct).1 ?_, .tail _ later⟩
      exact List.mem_map.mpr ⟨destination, later, again.trans same.symm⟩
  | case3 first rest other ih =>
    rcases List.mem_cons.mp member with rfl | later
    · exact .inl ⟨other, .head _⟩
    · rcases ih (List.nodup_cons.mp distinct).2 later with ⟨apart, old⟩ | ⟨same, ⟨old, among, known⟩ | new⟩
      · exact .inl ⟨apart, .tail _ old⟩
      · exact .inr ⟨same, .inl ⟨old, .tail _ among, known⟩⟩
      · refine .inr ⟨same, .inr ⟨?_, new.2⟩⟩
        simpa [Ne.symm other] using new.1

theorem Grouped.empty : Grouped [] [] := ⟨.nil, fun _ => .rfl, List.forall_mem_nil _⟩

theorem Grouped.enter (grouped : Grouped entries destinations) (entry : NodeId × Bool) :
    Grouped (entries ++ [entry]) (enter destinations entry) := by
  obtain ⟨target, isDefault⟩ := entry
  have targets := targets_addLabel target isDefault destinations
  refine ⟨?_, fun other => ?_, fun destination member => ?_⟩
  · rw [targets]
    split
    · exact grouped.distinct
    · next fresh => exact List.nodup_append'.mpr ⟨grouped.distinct, by simp, by simpa using fresh⟩
  · rw [targets, List.map_append, List.mem_append, ← grouped.targets other]
    split
    · next old =>
      simp only [List.map_cons, List.map_nil, List.mem_singleton]
      exact ⟨.inl, fun found => found.elim id fun same => same ▸ old⟩
    · simp
  · rcases labels_of_mem_addLabel grouped.distinct member with ⟨apart, old⟩ | ⟨same, ⟨old, among, known⟩ | new⟩
    · simp [grouped.labels destination old, Ne.symm apart]
    · simp [known.2, grouped.labels old among, known.1, same]
    · have none : entries.filter (·.1 = target) = [] := by
        rw [grouped.targets] at new
        exact List.filter_eq_nil_iff.mpr fun entry among => by
          simpa using fun here : entry.1 = target => new.1 (List.mem_map.mpr ⟨entry, among, here⟩)
      simp [new.2, same, none]

theorem Grouped.perm {others : List Destination} (grouped : Grouped entries destinations)
    (perm : others.Perm destinations) : Grouped entries others where
  distinct := (perm.map _).nodup_iff.mpr grouped.distinct
  targets target := (perm.map _).mem_iff.trans (grouped.targets target)
  labels destination member := grouped.labels destination (perm.mem_iff.mp member)

theorem grouped_foldl (more : List (NodeId × Bool)) (grouped : Grouped entries destinations) :
    Grouped (entries ++ more) (more.foldl enter destinations) := by
  induction more generalizing entries destinations with
  | nil => simpa using grouped
  | cons entry rest ih => simpa using ih (grouped.enter entry)

/-! Steps -/

/-- A case jump or a label of a switch. -/
structure IsCase (graph : FlowGraph) (switch id : NodeId) : Prop where
  inside : (graph.node id).parent = some switch
  kind : (graph.node id).kind = .caseJump ∨ ∃ isDefault, (graph.node id).kind = .caseLabel isDefault

theorem IsCase.of_core {id : NodeId} (isCase : IsCase graph switch id)
    (core : (next.node id).core = (graph.node id).core) : IsCase next switch id :=
  ⟨(congrArg Node.parent core :).trans isCase.inside, (congrArg Node.kind core :) ▸ isCase.kind⟩

inductive CaseStep (switch : NodeId) (blocks aims : NodeId → Prop) (graph : FlowGraph) : FlowGraph → Prop
  | cut {block : NodeId} (listed : blocks block) (opcode : Opcode) :
      CaseStep switch blocks aims graph (graph.dropBranch block opcode)
  | make {kind : Kind} (address : Nat) (isCase : kind = .caseJump ∨ ∃ isDefault, kind = .caseLabel isDefault) :
      CaseStep switch blocks aims graph (graph.addNode kind address address (some switch))
  | link {source target : NodeId} (leaves : blocks source ∨ IsCase graph switch source)
      (idle : (graph.node source).successors = []) (enters : aims target ∨ IsCase graph switch target) :
      CaseStep switch blocks aims graph (graph.addEdge source target)
  | move {target label : NodeId} (aimed : aims target) (isCase : IsCase graph switch label) :
      CaseStep switch blocks aims graph (graph.movePredecessors target label)

abbrev CaseSteps (switch : NodeId) (blocks aims : NodeId → Prop) : FlowGraph → FlowGraph → Prop :=
  Relation.ReflTransGen (CaseStep switch blocks aims)

/-! Chains of labels -/

/-- Every node leads to the next one, and the last one to what follows. -/
def Chains (graph : FlowGraph) (onward : Option NodeId) : List NodeId → Prop
  | [] => True
  | id :: rest => (graph.node id).successors = (rest.head?.or onward).toList ∧ Chains graph onward rest

namespace Chains

variable {onward : Option NodeId} {ids : List NodeId}

theorem congr (same : ∀ id ∈ ids, (next.node id).successors = (graph.node id).successors)
    (leads : Chains graph onward ids) : Chains next onward ids := by
  induction ids with
  | nil => trivial
  | cons id rest ih =>
    exact ⟨(same id (.head _)).trans leads.1, ih (fun id member => same id (.tail _ member)) leads.2⟩

theorem append {more : List NodeId} : Chains graph onward (ids ++ more) ↔
    Chains graph (more.head?.or onward) ids ∧ Chains graph onward more := by
  induction ids with
  | nil => simp [Chains]
  | cons id rest ih => simp [Chains, ih, List.head?_append, Option.or_assoc, and_assoc]

theorem mem_successors (leads : Chains graph onward ids) {id after : NodeId} (member : id ∈ ids)
    (edge : after ∈ (graph.node id).successors) : after ∈ ids ∨ onward = some after := by
  induction ids with
  | nil => cases member
  | cons first rest ih =>
    rcases List.mem_cons.mp member with rfl | later
    · rw [leads.1, Option.mem_toList, Option.or_eq_some_iff] at edge
      rcases edge with isNext | ⟨_, isOnward⟩
      · exact .inl (.tail _ (List.mem_of_mem_head? isNext))
      · exact .inr isOnward
    · exact (ih leads.2 later).imp_left (.tail _)

theorem last (leads : Chains graph none ids) {last : NodeId} (isLast : ids.getLast? = some last) :
    (graph.node last).successors = [] := by
  obtain ⟨front, rfl⟩ := List.getLast?_eq_some_iff.mp isLast
  exact (append.mp leads).2.1

theorem addEdge (leads : Chains graph none ids) (distinct : ids.Nodup) {last : NodeId}
    (isLast : ids.getLast? = some last) (bound : last < graph.size) (target : NodeId) :
    Chains (graph.addEdge last target) (some target) ids := by
  obtain ⟨front, rfl⟩ := List.getLast?_eq_some_iff.mp isLast
  obtain ⟨before, here⟩ := append.mp leads
  have apart : ∀ id ∈ front, last ≠ id := by
    rintro id member rfl
    exact (List.nodup_append'.mp distinct).2.2 member (.head _)
  refine append.mpr ⟨before.congr fun id member => ?_, ?_, trivial⟩
  · exact successors_addEdge_of_ne (apart id member) graph target
  · rw [successors_addEdge bound, if_pos rfl, here.1]
    rfl

end Chains


/-! The dispatch -/

/-- The label that a comparison asks for. -/
def caseEntry (graph : FlowGraph) (compare : NodeId) : NodeId × Bool :=
  ((graph.node compare).successors[1]?.getD 0, false)

def defaultEntry (graph : FlowGraph) (location : SwitchLocation) : List (NodeId × Bool) :=
  match (graph.node location.jumpBlock).successors.head?, (graph.node location.jumpBlock).target? with
  | some target, some address => if address = location.stop then [] else [(target, true)]
  | _, _ => []

theorem mem_successors_of_mem_defaultEntry {entry : NodeId × Bool} (member : entry ∈ defaultEntry graph location) :
    entry.1 ∈ (graph.node location.jumpBlock).successors := by
  unfold defaultEntry at member
  split at member
  · next target address isTarget _ =>
    split at member
    · cases member
    · exact List.mem_singleton.mp member ▸ List.mem_of_head? isTarget
  · cases member

structure Untouched (graph next : FlowGraph) (id : NodeId) : Prop where
  core : (next.node id).core = (graph.node id).core
  successors : (next.node id).successors = (graph.node id).successors

namespace Untouched

variable {id : NodeId}

theorem trans {final : FlowGraph} (first : Untouched graph next id) (second : Untouched next final id) :
    Untouched graph final id :=
  ⟨second.core.trans first.core, second.successors.trans first.successors⟩

theorem addNode (bound : id < graph.size) (kind : Kind) (start stop : Nat) (parent : Option NodeId) :
    Untouched graph (graph.addNode kind start stop parent) id := by
  constructor <;> rw [node_addNode, if_neg (Nat.ne_of_lt bound)]

theorem addEdge (apart : source ≠ id) (graph : FlowGraph) (target : NodeId) :
    Untouched graph (graph.addEdge source target) id :=
  ⟨(sameCores_addEdge source target).core id, successors_addEdge_of_ne apart graph target⟩

theorem dropBranch (apart : source ≠ id) (graph : FlowGraph) (opcode : Opcode) :
    Untouched graph (graph.dropBranch source opcode) id := by
  refine ⟨?_, by rw [successors_dropBranch, if_neg apart]⟩
  rw [FlowGraph.dropBranch, (sameCores_clearSuccessors _ _).core, node_popIf_of_ne apart]

theorem caseEntry_eq (untouched : Untouched graph next id) : caseEntry next id = caseEntry graph id := by
  rw [caseEntry, caseEntry, untouched.successors]

theorem defaultEntry_eq (untouched : Untouched graph next location.jumpBlock) :
    defaultEntry next location = defaultEntry graph location := by
  have kind : (next.node location.jumpBlock).kind = (graph.node location.jumpBlock).kind := by
    simpa only [Node.core] using congrArg Node.kind untouched.core
  simp only [defaultEntry, Node.target?, Node.last?, Node.instructions, kind, untouched.successors]

end Untouched

structure Dispatched (switch : NodeId) (compares : List NodeId) (graph next : FlowGraph) : Prop where
  distinct : compares.Nodup
  size : next.size = graph.size + compares.length
  jumps : ∀ id, graph.size ≤ id → id < next.size →
    (next.node id).kind = .caseJump ∧ (next.node id).parent = some switch
  taken : ∀ compare ∈ compares, ∃ following,
    (graph.node compare).successors = [following, (caseEntry graph compare).1]
  others : ∀ id < graph.size, id ∉ compares → Untouched graph next id
  steps : CaseSteps switch (· ∈ compares) (fun id => ∃ compare ∈ compares, id ∈ (graph.node compare).successors)
    graph next

theorem Dispatched.mem_successors {compares : List NodeId} (dispatched : Dispatched switch compares graph next)
    (grouped : Grouped (compares.map (caseEntry graph) ++ defaultEntry next location) destinations)
    (member : destination ∈ destinations) :
    (∃ compare ∈ compares, destination.target ∈ (graph.node compare).successors) ∨
      destination.target ∈ (next.node location.jumpBlock).successors := by
  obtain ⟨entry, among, isTarget⟩ :=
    List.mem_map.mp ((grouped.targets destination.target).mp (List.mem_map_of_mem member))
  rw [← isTarget]
  rcases List.mem_append.mp among with isCase | isDefault
  · obtain ⟨compare, listed, rfl⟩ := List.mem_map.mp isCase
    obtain ⟨following, pair⟩ := dispatched.taken compare listed
    exact .inl ⟨compare, listed, by simp [pair]⟩
  · exact .inr (mem_successors_of_mem_defaultEntry isDefault)

theorem CaseSteps.mono {more others : NodeId → Prop} (steps : CaseSteps switch blocks aims graph next)
    (wider : ∀ id, blocks id → more id) (further : ∀ id, aims id → others id) :
    CaseSteps switch more others graph next := by
  refine Relation.ReflTransGen.mono (fun _ _ step => ?_) _ _ steps
  cases step with
  | cut listed opcode => exact .cut (wider _ listed) opcode
  | make address isCase => exact .make address isCase
  | link leaves idle enters => exact .link (leaves.imp_left (wider _)) idle (enters.imp_left (further _))
  | move aimed isCase => exact .move (further _ aimed) isCase

/-- Case jumps take the place of comparisons that are the only branches of their blocks. -/
theorem revises_insertCaseJumps (compares : List NodeId) (owner : session.graph.Owner switch)
    (known : ∀ block ∈ compares, block < session.graph.size) :
    Revises rights (insertCaseJumps switch destinations compares) session fun result next =>
      result = (compares.map (caseEntry session.graph)).foldl enter destinations ∧
        Dispatched switch compares session.graph next.graph ∧
        ∀ block ∈ compares, BareBut .bt (session.graph.node block).instructions →
          Bare (next.graph.node block).instructions := by
  induction compares generalizing session destinations with
  | nil =>
    refine .pure ⟨rfl, ⟨.nil, rfl, fun id above below => ?_, ?_, fun _ _ _ => ⟨rfl, rfl⟩, .refl⟩, ?_⟩
    · exact absurd below (Nat.not_lt_of_le above)
    · exact List.forall_mem_nil _
    · exact List.forall_mem_nil _
  | cons compare rest ih =>
    have isCompare := known compare (.head _)
    refine .of_sound fun sound => .getGraph_bind ?_
    extract_lets node
    split
    · next following target isPair =>
      have pair : (session.graph.node compare).successors = [following, target] := isPair
      refine .modifyGraph_bind (edits_dropBranch _ _ _) fun cut _ toCut isCut => ?_
      have cutSize : cut.graph.size = session.graph.size := by rw [isCut, size_dropBranch]
      refine .bind (.addNode rfl (List.forall_mem_nil _) ?_) fun jump made _ toMade isMade => ?_
      · rintro _ ⟨⟩
        exact toCut.owner owner
      obtain ⟨isNew, isMade⟩ := isMade
      obtain rfl := isNew.trans cutSize
      replace isMade := congrArg (fun session => session.graph) isMade
      dsimp only [Session.withGraph_graph] at isMade
      have isJump : made.graph.node session.graph.size =
          ⟨node.stop, node.stop, [], [], some switch, .caseJump⟩ := by rw [isMade, node_addNode, if_pos isNew]
      have jumpCase : IsCase made.graph switch session.graph.size := by
        constructor <;> rw [isJump]
        exact .inl rfl
      have jumpBound := lt_size_of_parent jumpCase.inside
      have compareBound := toMade.lt (toCut.lt isCompare)
      have idle : (made.graph.node compare).successors = [] := by
        rw [isMade, node_addNode, if_neg (Nat.ne_of_lt (cutSize ▸ isCompare)), isCut, successors_dropBranch,
          if_pos rfl]
      refine .modifyGraph_bind (edits_addEdge compareBound jumpBound) fun linked _ toLinked isLinked => ?_
      have cores : SameCores made.graph linked.graph := isLinked ▸ sameCores_addEdge _ _
      have lone : (linked.graph.node compare).successors = [session.graph.size] := by
        rw [isLinked, successors_addEdge compareBound, if_pos rfl, idle]
        rfl
      have untouched (id : NodeId) (inside : id < session.graph.size) (apart : compare ≠ id) :
          Untouched session.graph linked.graph id := by
        rw [isLinked, isMade]
        refine .trans (.trans (.dropBranch apart _ .bt) ?_) (.addEdge apart _ _)
        exact isCut ▸ .addNode (cutSize ▸ inside) _ _ _ _
      have steps : CaseSteps switch (· ∈ compare :: rest)
          (fun id => ∃ block ∈ compare :: rest, id ∈ (session.graph.node block).successors)
          session.graph linked.graph := by
        refine .tail (.tail (.single (.cut (.head _) .bt)) (.make node.stop (.inl rfl))) ?_
        rw [← isCut, ← isMade, isLinked]
        exact .link (.inl (.head _)) idle (.inr jumpCase)
      extract_lets onward
      -- The comparison and its jump are settled, whether or not the jump leads on.
      have finish (next : Session) (edits : Edits rights linked next) (cores : SameCores made.graph next.graph)
          (lone : (next.graph.node compare).successors = [session.graph.size])
          (others : ∀ id < session.graph.size, compare ≠ id → Untouched session.graph next.graph id)
          (steps : CaseSteps switch (· ∈ compare :: rest)
            (fun id => ∃ block ∈ compare :: rest, id ∈ (session.graph.node block).successors)
            session.graph next.graph) :
          Revises rights (onward ()) next fun result final =>
            result = ((compare :: rest).map (caseEntry session.graph)).foldl enter destinations ∧
              Dispatched switch (compare :: rest) session.graph final.graph ∧
              ∀ block ∈ compare :: rest, BareBut .bt (session.graph.node block).instructions →
                Bare (final.graph.node block).instructions := by
        have afterCut := (toMade.trans toLinked).trans edits
        have toNext := toCut.trans afterCut
        have nextSize : next.graph.size = session.graph.size + 1 := by
          rw [cores.size, isMade, size_addNode, cutSize]
        refine .imp (.mono (.refl rights) (ih (toNext.owner owner) fun block member =>
          toNext.lt (known block (.tail _ member)))) ?_
        rintro result final ⟨toFinal, isResult, done, bare⟩
        have fresh : compare ∉ rest := by
          intro again
          obtain ⟨following, isPair⟩ := done.taken compare again
          exact absurd (lone.symm.trans isPair) (by simp)
        have same (block : NodeId) (member : block ∈ rest) : Untouched session.graph next.graph block :=
          others block (known block (.tail _ member)) fun here => fresh (here ▸ member)
        refine ⟨?_, ⟨List.nodup_cons.mpr ⟨fresh, done.distinct⟩, ?_, fun id above below => ?_,
          fun block member => ?_, fun id inside outside => ?_, steps.trans ?_⟩, fun block member only => ?_⟩
        · have entries : rest.map (caseEntry next.graph) = rest.map (caseEntry session.graph) :=
            List.map_congr_left fun block member => (same block member).caseEntry_eq
          rw [isResult, entries, List.map_cons, List.foldl_cons, enter, caseEntry, pair]
          rfl
        · rw [done.size, nextSize, List.length_cons, Nat.add_assoc, Nat.add_comm 1]
        · rcases Nat.eq_or_lt_of_le above with rfl | later
          · have outside : session.graph.size ∉ rest := fun member =>
              Nat.lt_irrefl _ (known _ (.tail _ member))
            have core := (done.others session.graph.size (by omega) outside).core
            rw [cores.core, isJump] at core
            exact ⟨congrArg Node.kind core, congrArg Node.parent core⟩
          · exact done.jumps id (nextSize ▸ later) below
        · rcases List.mem_cons.mp member with rfl | later
          · exact ⟨following, by rw [caseEntry, pair]; rfl⟩
          · obtain ⟨following, isPair⟩ := done.taken block later
            rw [(same block later).successors, (same block later).caseEntry_eq] at isPair
            exact ⟨following, isPair⟩
        · rw [List.mem_cons, not_or] at outside
          exact (others id inside (Ne.symm outside.1)).trans (done.others id (by omega) outside.2)
        · refine done.steps.mono (fun _ => .tail _) ?_
          rintro id ⟨block, member, edge⟩
          exact ⟨block, .tail _ member, (same block member).successors ▸ edge⟩
        · rcases List.mem_cons.mp member with rfl | later
          · have bare : Bare (cut.graph.node block).instructions := isCut ▸ bare_dropBranch only
            exact (afterCut.trans toFinal).grows.bare bare (toCut.lt isCompare)
          · exact bare block later (toNext.grows.bareBut only (known block member))
      have flows : following ∈ (session.graph.node compare).successors := pair ▸ List.mem_cons_self
      split
      · refine .modifyGraph_bind (edits_addEdge (toLinked.lt jumpBound) ?_) fun next _ edits isNext => ?_
        · exact toLinked.lt (toMade.lt (toCut.lt (sound.graph.edges.target_lt flows)))
        refine finish next edits (isNext ▸ cores.trans (sameCores_addEdge _ _)) ?_ (fun id inside apart => ?_) ?_
        · rw [isNext, successors_addEdge_of_ne (Nat.ne_of_gt isCompare), lone]
        · exact (untouched id inside apart).trans (isNext ▸ .addEdge (Nat.ne_of_gt inside) _ _)
        · refine steps.tail ?_
          rw [isNext]
          refine .link (.inr (jumpCase.of_core (cores.core _))) ?_ (.inl ⟨compare, .head _, flows⟩)
          rw [isLinked, successors_addEdge_of_ne (Nat.ne_of_lt isCompare), isJump]
      · exact finish linked .refl cores lone untouched steps
    · exact .throw rfl

theorem revises_insertDefault :
    Revises rights (insertDefault location destinations) session fun result next =>
      result = (defaultEntry session.graph location).foldl enter destinations ∧
        next.graph = session.graph.dropBranch location.jumpBlock .b := by
  refine .getGraph_bind ?_
  extract_lets node
  refine .modifyGraph_bind (edits_dropBranch _ _ _) fun cut _ _ isCut => ?_
  split
  · next target address isTarget isAddress =>
    refine .pure ⟨?_, isCut⟩
    rw [defaultEntry, show (session.graph.node location.jumpBlock).successors.head? = some target from isTarget,
      show (session.graph.node location.jumpBlock).target? = some address from isAddress]
    dsimp only
    split <;> rfl
  · next none =>
    refine .pure ⟨?_, isCut⟩
    unfold defaultEntry
    split
    · next target address isTarget isAddress => exact absurd isAddress (none target address isTarget)
    · rfl

/-! Labels -/

variable (blocks aims)

theorem revises_addLabelNodes {address : Nat} (labels : List Bool) (owner : session.graph.Owner switch) :
    Revises rights (addLabelNodes switch address labels) session fun ids next =>
      ids = List.range' session.graph.size labels.length ∧
        next.graph.size = session.graph.size + labels.length ∧
        ids.map next.graph.node = labels.map (fun isDefault =>
          { start := address, stop := address, parent := some switch, kind := .caseLabel isDefault }) ∧
        (∀ id < session.graph.size, next.graph.node id = session.graph.node id) ∧
        CaseSteps switch blocks aims session.graph next.graph := by
  induction labels generalizing session with
  | nil => exact .pure ⟨rfl, rfl, rfl, fun _ _ => rfl, .refl⟩
  | cons isDefault rest ih =>
    refine .bind (.addNode rfl (List.forall_mem_nil _) ?_) fun label made _ toMade isMade => ?_
    · rintro _ ⟨⟩
      exact owner
    obtain ⟨rfl, isMade⟩ := isMade
    replace isMade := congrArg (fun session => session.graph) isMade
    dsimp only [Session.withGraph_graph] at isMade
    have size : made.graph.size = session.graph.size + 1 := by rw [isMade, size_addNode]
    refine .bind (ih (toMade.owner owner)) fun more next _ _ done => .pure ?_
    obtain ⟨rfl, nextSize, nodes, others, steps⟩ := done
    refine ⟨?_, ?_, ?_, fun id bound => ?_, .head ?_ steps⟩
    · rw [size, List.length_cons, List.range'_succ]
    · rw [nextSize, size, List.length_cons, Nat.add_assoc, Nat.add_comm 1]
    · rw [List.map_cons, nodes, others _ (by omega), isMade, node_addNode, if_pos rfl, List.map_cons]
    · rw [others id (by omega), isMade, node_addNode, if_neg (Nat.ne_of_lt bound)]
    · exact isMade ▸ .make _ (.inr ⟨_, rfl⟩)

theorem sameCores_linkNodes (ids : List NodeId) (graph : FlowGraph) :
    SameCores graph (linkNodes graph ids) := by
  induction ids generalizing graph with
  | nil => exact .refl _
  | cons first tail ih =>
    cases tail with
    | nil => exact .refl _
    | cons second rest => exact (sameCores_addEdge first second).trans (ih _)

theorem chains_linkNodes (ids : List NodeId) (distinct : ids.Nodup) (labels : ∀ id ∈ ids, IsCase graph switch id)
    (idle : ∀ id ∈ ids, (graph.node id).successors = []) :
    Chains (linkNodes graph ids) none ids ∧ CaseSteps switch blocks aims graph (linkNodes graph ids) ∧
      ∀ other, other ∉ ids → ((linkNodes graph ids).node other).successors = (graph.node other).successors := by
  induction ids generalizing graph with
  | nil => exact ⟨trivial, .refl, fun _ _ => rfl⟩
  | cons first tail ih =>
    rcases tail with _ | ⟨second, rest⟩
    · exact ⟨⟨idle first (.head _), trivial⟩, .refl, fun _ _ => rfl⟩
    rw [linkNodes]
    obtain ⟨fresh, distinct⟩ := List.nodup_cons.mp distinct
    have apart : ∀ id ∈ second :: rest, first ≠ id := fun id member same => fresh (same ▸ member)
    obtain ⟨leads, steps, others⟩ := ih distinct
      (fun id member => (labels id (.tail _ member)).of_core ((sameCores_addEdge first second).core id))
      fun id member => by rw [successors_addEdge_of_ne (apart id member), idle id (.tail _ member)]
    have isFirst := labels first (.head _)
    have none := idle first (.head _)
    refine ⟨⟨?_, leads⟩, .head (.link (.inr isFirst) none (.inr (labels second (by simp)))) steps,
      fun other outside => ?_⟩
    · rw [others first fresh, successors_addEdge (lt_size_of_parent isFirst.inside), if_pos rfl, none]
      rfl
    · have apart : first ≠ other := by
        rintro rfl
        exact outside (.head _)
      rw [others other fun member => outside (.tail _ member), successors_addEdge_of_ne apart]

/-- Whether a destination is at the exit of a switch or behind it. -/
abbrev SwitchLocation.leaves (location : SwitchLocation) (graph : FlowGraph)
    (group : Destination × List NodeId) : Bool :=
  location.stop ≤ (graph.node group.1.target).start

def labelsAt (leaves : Destination × List NodeId → Bool) (groups : List (Destination × List NodeId)) :
    List NodeId :=
  (groups.filter leaves).flatMap (·.2)

theorem mem_of_labelsAt {leaves : Destination × List NodeId → Bool} {groups : List (Destination × List NodeId)}
    {id : NodeId} (member : id ∈ labelsAt leaves groups) : id ∈ groups.flatMap (·.2) :=
  (List.filter_sublist.flatMap _).subset member

theorem labelsAt_append (leaves : Destination × List NodeId → Bool) (groups : List (Destination × List NodeId))
    (group : Destination × List NodeId) : labelsAt leaves (groups ++ [group]) =
      labelsAt leaves groups ++ if leaves group then group.2 else [] := by
  unfold labelsAt
  rw [List.filter_append, List.flatMap_append]
  cases isLeaving : leaves group <;> simp [isLeaving]

structure LabelPlacement.Placed (base : FlowGraph) (switch : NodeId) (location : SwitchLocation)
    (groups : List (Destination × List NodeId)) (graph : FlowGraph) (placement : LabelPlacement) : Prop where
  larger : base.size ≤ graph.size
  ids : groups.flatMap (·.2) = List.range' base.size (graph.size - base.size)
  cores : ∀ id < base.size, (graph.node id).core = (base.node id).core
  made : ∀ group ∈ groups, group.2.map (fun id => ((graph.node id).kind, (graph.node id).parent)) =
    group.1.labels.map fun isDefault => (.caseLabel isDefault, some switch)
  inner : ∀ group ∈ groups, location.leaves base group = false → Chains graph (some group.1.target) group.2
  outer : Chains graph none (labelsAt (location.leaves base) groups)
  heads : ∀ head ∈ placement.heads, head.2 ∈ groups.flatMap (·.2)
  body : placement.body = (labelsAt (!location.leaves base ·) groups).head?
  first : placement.exitLabels.map (·.1) = (labelsAt (location.leaves base) groups).head?
  last : placement.exitLabels.map (·.2) = (labelsAt (location.leaves base) groups).getLast?

namespace LabelPlacement.Placed

variable {base : FlowGraph} {groups : List (Destination × List NodeId)}
  (placed : placement.Placed base switch location groups graph) {id : NodeId}

include placed

theorem bounds (member : id ∈ groups.flatMap (·.2)) : base.size ≤ id ∧ id < graph.size := by
  rwa [placed.ids, List.mem_range'_1, Nat.add_sub_cancel' placed.larger] at member

theorem isCase (member : id ∈ groups.flatMap (·.2)) : IsCase graph switch id := by
  obtain ⟨group, among, here⟩ := List.mem_flatMap.mp member
  have made := List.mem_map_of_mem here (f := fun id => ((graph.node id).kind, (graph.node id).parent))
  rw [placed.made group among] at made
  obtain ⟨isDefault, -, same⟩ := List.mem_map.mp made
  obtain ⟨kind, parent⟩ := Prod.mk.inj same
  exact ⟨parent.symm, .inr ⟨isDefault, kind.symm⟩⟩

theorem mem_body (same : placement.body = some id) : id ∈ groups.flatMap (·.2) :=
  mem_of_labelsAt (List.mem_of_head? (placed.body.symm.trans same))

theorem mem_exits {pair : NodeId × NodeId} (same : placement.exitLabels = some pair) :
    pair.1 ∈ groups.flatMap (·.2) ∧ pair.2 ∈ groups.flatMap (·.2) := by
  have first := placed.first
  have last := placed.last
  rw [same] at first last
  exact ⟨mem_of_labelsAt (List.mem_of_head? first.symm), mem_of_labelsAt (List.mem_of_getLast? last.symm)⟩

/-- No label is both of a destination that a switch holds and of one that it does not. -/
theorem apart {group : Destination × List NodeId} (member : group ∈ groups)
    (stays : location.leaves base group = false) (among : id ∈ group.2) :
    id ∉ labelsAt (location.leaves base) groups := by
  intro outside
  obtain ⟨other, isOther, here⟩ := List.mem_flatMap.mp outside
  obtain ⟨isOther, leaves⟩ := List.mem_filter.mp isOther
  have distinct : (groups.flatMap (·.2)).Nodup := placed.ids ▸ List.nodup_range'
  have other : group ≠ other := by
    rintro rfl
    exact Bool.false_ne_true (stays.symm.trans leaves)
  have : Std.Symm (Function.onFun List.Disjoint fun group : Destination × List NodeId => group.2) :=
    ⟨fun _ _ => List.disjoint_symm⟩
  exact (List.nodup_flatMap.mp distinct).2.forall member isOther other among here

theorem extend {labels : List NodeId} {result : LabelPlacement} {linked : FlowGraph}
    (isLabels : labels = List.range' graph.size destination.labels.length)
    (size : linked.size = graph.size + destination.labels.length)
    (old : ∀ id < graph.size, Untouched graph linked id)
    (made : labels.map (fun id => ((linked.node id).kind, (linked.node id).parent)) =
      destination.labels.map fun isDefault => (.caseLabel isDefault, some switch))
    (cores : SameCores linked next)
    (inner : ∀ group ∈ groups ++ [(destination, labels)], location.leaves base group = false →
      Chains next (some group.1.target) group.2)
    (outer : Chains next none (labelsAt (location.leaves base) (groups ++ [(destination, labels)])))
    (heads : ∀ head ∈ result.heads, head.2 ∈ (groups ++ [(destination, labels)]).flatMap (·.2))
    (body : result.body = (labelsAt (!location.leaves base ·) (groups ++ [(destination, labels)])).head?)
    (first : result.exitLabels.map (·.1) =
      (labelsAt (location.leaves base) (groups ++ [(destination, labels)])).head?)
    (last : result.exitLabels.map (·.2) =
      (labelsAt (location.leaves base) (groups ++ [(destination, labels)])).getLast?) :
    result.Placed base switch location (groups ++ [(destination, labels)]) next where
  larger := by rw [cores.size, size]; exact Nat.le_add_right_of_le placed.larger
  ids := by
    have larger := placed.larger
    rw [List.flatMap_append, placed.ids, List.flatMap_singleton, isLabels, cores.size, size,
      Nat.sub_add_comm larger, ← List.range'_append_1, Nat.add_sub_cancel' larger]
  cores id bound := by
    rw [cores.core, (old id (Nat.lt_of_lt_of_le bound placed.larger)).core, placed.cores id bound]
  made group member := by
    simp only [cores.kind, cores.parent]
    rcases List.mem_append.mp member with before | new
    · rw [← placed.made group before]
      refine List.map_congr_left fun id among => ?_
      have core := (old id (placed.bounds (List.mem_flatMap_of_mem before among)).2).core
      exact Prod.ext (congrArg Node.kind core :) (congrArg Node.parent core :)
    · rw [List.mem_singleton.mp new]
      exact made
  inner := inner
  outer := outer
  heads := heads
  body := body
  first := first
  last := last

end LabelPlacement.Placed

theorem revises_extendExitLabels {exits labels : List NodeId} {first last : NodeId}
    (leads : Chains session.graph none exits) (chain : Chains session.graph none labels)
    (isHead : placement.exitLabels.map (·.1) = exits.head?)
    (isTail : placement.exitLabels.map (·.2) = exits.getLast?)
    (isFirst : labels.head? = some first) (isLast : labels.getLast? = some last) (distinct : exits.Nodup)
    (known : ∀ id ∈ exits, IsCase session.graph switch id) (apart : ∀ id ∈ labels, id ∉ exits)
    (isCase : IsCase session.graph switch first) :
    Revises rights (extendExitLabels placement first last) session fun result next =>
      (SameCores session.graph next.graph ∧
        (∀ id, id ∉ exits → (next.graph.node id).successors = (session.graph.node id).successors) ∧
        Chains next.graph none (exits ++ labels) ∧
        CaseSteps switch blocks aims session.graph next.graph) ∧ result.body = placement.body ∧
        result.exitLabels.map (·.1) = (exits ++ labels).head? ∧
        result.exitLabels.map (·.2) = (exits ++ labels).getLast? := by
  unfold extendExitLabels
  split
  · next head tail isPair =>
    rw [isPair] at isHead isTail
    have among := List.mem_of_getLast? isTail.symm
    have bound := lt_size_of_parent (known tail among).inside
    have others (id : NodeId) (outside : id ∉ exits) :
        ((session.graph.addEdge tail first).node id).successors = (session.graph.node id).successors := by
      refine successors_addEdge_of_ne ?_ _ _
      rintro rfl
      exact outside among
    refine .modifyGraph_bind (edits_addEdge bound (lt_size_of_parent isCase.inside)) fun next _ _ isNext =>
      .pure ⟨?_, rfl, ?_, ?_⟩
    · rw [isNext]
      refine ⟨sameCores_addEdge _ _, others, Chains.append.mpr ⟨?_, ?_⟩, .single ?_⟩
      · rw [isFirst]
        exact leads.addEdge distinct isTail.symm bound first
      · exact chain.congr fun id member => others id (apart id member)
      · exact .link (.inr (known tail among)) (leads.last isTail.symm) (.inr isCase)
    · rw [List.head?_append, ← isHead]
      rfl
    · rw [List.getLast?_append, isLast]
      rfl
  · next isNone =>
    rw [isNone] at isHead
    rw [List.head?_eq_none_iff.mp isHead.symm]
    exact .pure ⟨⟨.refl _, fun _ _ => rfl, chain, .refl⟩, rfl, isFirst.symm, isLast.symm⟩

theorem revises_placeLabels {base : FlowGraph} {groups : List (Destination × List NodeId)}
    (owner : session.graph.Owner switch) (placed : placement.Placed base switch location groups session.graph)
    (aimed : aims destination.target) (bound : destination.target < base.size)
    (fresh : ∀ group ∈ groups, group.1.target ≠ destination.target) :
    Revises rights (placeLabels switch location placement destination) session fun result next =>
      CaseSteps switch blocks aims session.graph next.graph ∧
        ∃ labels, result.Placed base switch location (groups ++ [(destination, labels)]) next.graph := by
  unfold placeLabels
  extract_lets target
  refine .getGraph_bind ?_
  extract_lets address
  have isAddress : address = (base.node target).start := (congrArg Node.start (placed.cores target bound) :)
  refine .bind (revises_addLabelNodes blocks aims _ owner) ?_
  rintro labels made - toMade ⟨isLabels, madeSize, nodes, others, makes⟩
  have isNew (id : NodeId) (member : id ∈ labels) : session.graph.size ≤ id ∧ id < made.graph.size := by
    rwa [isLabels, List.mem_range'_1, ← madeSize] at member
  have distinct : labels.Nodup := isLabels ▸ List.nodup_range'
  have label (id : NodeId) (member : id ∈ labels) :
      IsCase made.graph switch id ∧ (made.graph.node id).successors = [] := by
    have isNode := List.mem_map_of_mem member (f := made.graph.node)
    rw [nodes] at isNode
    obtain ⟨isDefault, _, isNode⟩ := List.mem_map.mp isNode
    rw [← isNode]
    exact ⟨⟨by rw [← isNode], .inr ⟨isDefault, by rw [← isNode]⟩⟩, rfl⟩
  refine .modifyGraph_bind (edits_linkNodes labels _ fun id member => (isNew id member).2)
    fun linked _ toLinked isLinked => ?_
  have links := chains_linkNodes blocks aims labels distinct
    (fun id member => (label id member).1) fun id member => (label id member).2
  rw [← isLinked] at links
  obtain ⟨chain, linkSteps, rests⟩ := links
  have steps := makes.trans linkSteps
  have cores : SameCores made.graph linked.graph := isLinked ▸ sameCores_linkNodes labels _
  have isCase (id : NodeId) (member : id ∈ labels) : IsCase linked.graph switch id :=
    (label id member).1.of_core (cores.core id)
  have old (id : NodeId) (inside : id < session.graph.size) : Untouched session.graph linked.graph id := by
    refine ⟨?_, ?_⟩
    · rw [cores.core, others id inside]
    · rw [rests id fun member => Nat.not_le_of_lt inside (isNew id member).1, others id inside]
  have linkedSize := cores.size.trans madeSize
  have isMade : labels.map (fun id =>
      ((linked.graph.node id).kind, (linked.graph.node id).parent)) =
        destination.labels.map fun isDefault => (.caseLabel isDefault, some switch) := by
    simpa only [cores.kind, cores.parent, List.map_map, Function.comp_def] using
      congrArg (List.map fun node => (node.kind, node.parent)) nodes
  have oldInner (group : Destination × List NodeId) (member : group ∈ groups)
      (stays : location.leaves base group = false) :
      Chains linked.graph (some group.1.target) group.2 :=
    (placed.inner group member stays).congr fun id among =>
      (old id (placed.bounds (List.mem_flatMap_of_mem member among)).2).successors
  have oldOuter : Chains linked.graph none (labelsAt (location.leaves base) groups) :=
    placed.outer.congr fun id among => (old id (placed.bounds (mem_of_labelsAt among)).2).successors
  have heads : ∀ head ∈ placement.heads, head.2 ∈ (groups ++ [(destination, labels)]).flatMap (·.2) := by
    intro head member
    rw [List.flatMap_append]
    exact List.mem_append_left _ (placed.heads head member)
  split
  · next first last isFirst isLast =>
    have lastNew := isNew last (List.mem_of_getLast? isLast)
    have firstCase := isCase first (List.mem_of_head? isFirst)
    extract_lets allHeads
    have heads : ∀ head ∈ allHeads, head.2 ∈ (groups ++ [(destination, labels)]).flatMap (·.2) := by
      intro head member
      rcases List.mem_append.mp member with old | new
      · exact heads head old
      · rw [List.mem_singleton.mp new]
        simp [List.mem_of_head? isFirst]
    split
    · next outside =>
      have leaves : location.leaves base (destination, labels) = true := decide_eq_true (isAddress ▸ outside)
      refine .bind (revises_extendExitLabels blocks aims oldOuter chain placed.first placed.last isFirst isLast ?_
        (fun id among => ?_) (fun id member among => ?_) firstCase) ?_
      · have distinct : (groups.flatMap (·.2)).Nodup := placed.ids ▸ List.nodup_range'
        exact distinct.sublist (List.filter_sublist.flatMap _)
      · have among := mem_of_labelsAt among
        exact (placed.isCase among).of_core (old id (placed.bounds among).2).core
      · exact Nat.not_le_of_lt (placed.bounds (mem_of_labelsAt among)).2 (isNew id member).1
      rintro result next - toNext ⟨⟨sameCores, others, outer, leads⟩, body, isHead, isTail⟩
      refine .pure ⟨steps.trans leads, labels, placed.extend isLabels linkedSize old isMade sameCores
        ?_ ?_ heads ?_ ?_ ?_⟩
      · rw [List.forall_mem_append, List.forall_mem_singleton]
        refine ⟨fun group member stays => ?_, fun stays => absurd (stays.symm.trans leaves) Bool.false_ne_true⟩
        exact (oldInner group member stays).congr fun id among => others id (placed.apart member stays among)
      all_goals simp only [labelsAt_append, leaves, Bool.not_true, Bool.false_eq_true, if_true, if_false]
      · exact outer
      · rw [body, placed.body, List.append_nil]
      · exact isHead
      · exact isTail
    · next inside =>
      have stays : location.leaves base (destination, labels) = false := decide_eq_false (isAddress ▸ inside)
      have targetBound := Nat.lt_of_lt_of_le bound placed.larger
      have lastCase := isCase last (List.mem_of_getLast? isLast)
      have moves : GraphEdit rights linked.graph _ :=
        .movePredecessors target first (lt_size_of_parent firstCase.inside)
      have moveCores := sameCores_movePredecessors linked.graph target first
      have edge : GraphEdit rights _ _ := .addEdge last target
        (moveCores.size.symm ▸ lt_size_of_parent lastCase.inside)
        (moveCores.size.symm ▸ (toMade.trans toLinked).lt targetBound)
      refine .modifyGraph_bind (.tail moves.one edge) fun next _ _ isNext => ?_
      have sameCores : SameCores linked.graph next.graph := isNext ▸ moveCores.trans (sameCores_addEdge _ _)
      -- What leads to the destination is led to its labels; no label of another one is.
      have moved (id : NodeId) (absent : target ∉ (linked.graph.node id).successors) :
          ((linked.graph.movePredecessors target first).node id).successors =
            (linked.graph.node id).successors :=
        successors_movePredecessors_of_not_mem absent
      have rests {onward : Option NodeId} {ids : List NodeId} (leads : Chains linked.graph onward ids)
          (inside : ∀ id ∈ ids, base.size ≤ id ∧ id < session.graph.size)
          (apart : onward ≠ some target) : Chains next.graph onward ids := by
        refine leads.congr fun id among => ?_
        rw [isNext, successors_addEdge_of_ne, moved]
        · intro edge
          rcases leads.mem_successors among edge with label | same
          · exact Nat.not_le_of_lt bound (inside target label).1
          · exact apart same
        · rintro rfl
          exact Nat.not_le_of_lt (inside last among).2 lastNew.1
      have movedChain : Chains (linked.graph.movePredecessors target first) none labels := by
        refine chain.congr fun id member => moved id fun edge => ?_
        rcases chain.mem_successors member edge with label | same
        · exact Nat.not_le_of_lt targetBound (isNew target label).1
        · cases same
      have leads : CaseSteps switch blocks aims linked.graph next.graph := by
        rw [isNext]
        exact .tail (.single (.move aimed firstCase)) (.link (.inr (lastCase.of_core (moveCores.core last)))
          (movedChain.last isLast) (.inl aimed))
      refine .pure ⟨steps.trans leads, labels, placed.extend isLabels linkedSize old isMade sameCores
        ?_ ?_ heads ?_ ?_ ?_⟩
      · rw [List.forall_mem_append, List.forall_mem_singleton]
        refine ⟨fun group member stays => ?_, fun _ => ?_⟩
        · refine rests (oldInner group member stays) (fun id among => ?_) ?_
          · exact placed.bounds (List.mem_flatMap_of_mem member among)
          · exact fun same => fresh group member (Option.some.inj same)
        · rw [isNext]
          exact movedChain.addEdge distinct isLast (moveCores.size.symm ▸ lt_size_of_parent lastCase.inside) target
      all_goals simp only [labelsAt_append, stays, Bool.not_false, Bool.false_eq_true, if_true, if_false,
        List.append_nil]
      · exact rests oldOuter (fun id among => placed.bounds (mem_of_labelsAt among)) (by simp)
      · rw [placed.body, List.head?_append, isFirst]
      · exact placed.first
      · exact placed.last
  · next none =>
    cases labels with
    | cons first rest => exact absurd (List.getLast?_eq_some_getLast (by simp)) (none first _ rfl)
    | nil =>
      refine .pure ⟨steps, [], placed.extend isLabels linkedSize old isMade (.refl _) ?_ ?_ heads ?_ ?_ ?_⟩
      · rw [List.forall_mem_append, List.forall_mem_singleton]
        exact ⟨oldInner, fun _ => trivial⟩
      all_goals rw [labelsAt_append, ite_self, List.append_nil]
      · exact oldOuter
      · exact placed.body
      · exact placed.first
      · exact placed.last

theorem LabelPlacement.Placed.empty (graph : FlowGraph) (switch : NodeId) (location : SwitchLocation) :
    LabelPlacement.Placed graph switch location [] graph {} where
  larger := Nat.le_refl _
  ids := by rw [Nat.sub_self]; rfl
  cores _ _ := rfl
  made := List.forall_mem_nil _
  inner := List.forall_mem_nil _
  outer := trivial
  heads := List.forall_mem_nil _
  body := rfl
  first := rfl
  last := rfl

theorem revises_placeAll {base : FlowGraph} (ordered : List Destination)
    {groups : List (Destination × List NodeId)} (owner : session.graph.Owner switch)
    (placed : placement.Placed base switch location groups session.graph)
    (aimed : ∀ destination ∈ ordered, aims destination.target ∧ destination.target < base.size)
    (distinct : ((groups.map (·.1) ++ ordered).map (·.target)).Nodup) :
    Revises rights (ordered.foldlM (placeLabels switch location) placement) session fun result next =>
      CaseSteps switch blocks aims session.graph next.graph ∧
        ∃ all, all.map (·.1) = groups.map (·.1) ++ ordered ∧
          result.Placed base switch location all next.graph := by
  induction ordered generalizing session placement groups with
  | nil => exact .pure ⟨.refl, groups, by simp, placed⟩
  | cons destination rest ih =>
    rw [List.foldlM_cons]
    obtain ⟨isAim, bound⟩ := aimed destination (.head _)
    refine .bind (revises_placeLabels blocks aims owner placed isAim bound fun group member same => ?_) ?_
    · rw [List.map_append] at distinct
      refine (List.nodup_append'.mp distinct).2.2 ?_ (.head _)
      exact List.mem_map.mpr ⟨group.1, List.mem_map_of_mem member, same⟩
    · rintro result next - toNext ⟨steps, labels, placed⟩
      refine .imp (ih (toNext.owner owner) placed (fun item member => aimed item (.tail _ member)) ?_) ?_
      · simpa using distinct
      · rintro _ _ ⟨more, all, isAll, placed⟩
        exact ⟨steps.trans more, all, by simpa using isAll, placed⟩

end Structuring.Recovery
