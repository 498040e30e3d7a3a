import Mathlib.Data.Finset.Card
import Mathlib.Data.List.Sigma
import Structuring.Proofs.Sequence

/-! What a tree shows of a graph.

The parts of a structure are runs of first successors inside it. A descent goes from a structure
through one of its parts to a node there, and on from that node. The tree of a node shows another
once for every descent to it.
-/

namespace Structuring.Outline

open Bytecode Recovery FlowGraph

variable {graph : FlowGraph} {parent top start id other : NodeId} {stop current : Option NodeId}
  {fuel index : Nat} {seen : List NodeId} {path : List (Nat × NodeId)} {α β : Type}

/-! Runs of first successors -/

/-- A node on the run of first successors from another, directly inside a structure and before a
node to stop at. -/
inductive OnRun (graph : FlowGraph) (parent : NodeId) (stop : Option NodeId) (start : NodeId) :
    NodeId → Prop
  | start (inside : (graph.node start).parent = some parent) (apart : some start ≠ stop) :
      OnRun graph parent stop start start
  | next {id other : NodeId} (before : OnRun graph parent stop start id)
      (first : (graph.node id).successors.head? = some other)
      (inside : (graph.node other).parent = some parent) (apart : some other ≠ stop) :
      OnRun graph parent stop start other

theorem OnRun.inside (run : OnRun graph parent stop start id) : (graph.node id).parent = some parent := by
  cases run with
  | start inside _ => exact inside
  | next _ _ inside _ => exact inside

theorem onRun_of_mem_chainFrom
    (begins : ∀ id, current = some id → (graph.node id).parent = some parent → some id ≠ stop →
      OnRun graph parent stop start id)
    (member : id ∈ chainFrom graph parent stop fuel seen current) :
    OnRun graph parent stop start id := by
  fun_induction chainFrom graph parent stop fuel seen current with
  | case1 fuel seen current _ => cases member
  | case2 fuel seen current going ih =>
    simp only [not_or, Decidable.not_not] at going
    have here := begins current rfl going.2.1 going.1
    rcases List.mem_cons.mp member with rfl | later
    · exact here
    · exact ih (fun other first inside apart => .next here first inside apart) later
  | case3 => cases member

theorem nodup_chainFrom (fuel : Nat) (seen : List NodeId) (current : Option NodeId) :
    (chainFrom graph parent stop fuel seen current).Nodup ∧
      ∀ id ∈ chainFrom graph parent stop fuel seen current, id ∉ seen := by
  fun_induction chainFrom graph parent stop fuel seen current with
  | case1 => exact ⟨.nil, List.forall_mem_nil _⟩
  | case2 fuel seen current going ih =>
    simp only [not_or] at going
    refine ⟨List.nodup_cons.mpr ⟨fun again => ih.2 current again (.head _), ih.1⟩, ?_⟩
    intro id member
    rcases List.mem_cons.mp member with rfl | later
    · exact going.2.2
    · exact fun old => ih.2 id later (.tail _ old)
  | case3 => exact ⟨.nil, List.forall_mem_nil _⟩

theorem mem_chainFrom_head (inside : (graph.node id).parent = some parent) (apart : some id ≠ stop)
    (fresh : id ∉ seen) : id ∈ chainFrom graph parent stop (fuel + 1) seen (some id) := by
  rw [chainFrom, if_neg (by simp [inside, apart, fresh])]
  exact .head _

/-- What a node goes on to is listed with it, unless it was seen before or the fuel is used up. -/
theorem chainFrom_closed (member : id ∈ chainFrom graph parent stop fuel seen current)
    (first : (graph.node id).successors.head? = some other)
    (inside : (graph.node other).parent = some parent) (apart : some other ≠ stop) :
    other ∈ chainFrom graph parent stop fuel seen current ∨ other ∈ seen ∨
      (chainFrom graph parent stop fuel seen current).length = fuel := by
  fun_induction chainFrom graph parent stop fuel seen current with
  | case1 => cases member
  | case2 fuel seen current _ ih =>
    rw [List.length_cons, List.mem_cons, Nat.add_right_cancel_iff]
    have onward : other ∈ chainFrom graph parent stop fuel (current :: seen)
          (graph.node current).successors.head? ∨ other ∈ current :: seen ∨
        (chainFrom graph parent stop fuel (current :: seen)
          (graph.node current).successors.head?).length = fuel := by
      rcases List.mem_cons.mp member with rfl | later
      · cases fuel with
        | zero => exact .inr (.inr (by simp [chainFrom]))
        | succ fuel =>
          by_cases seen : other ∈ id :: seen
          · exact .inr (.inl seen)
          · exact .inl (first ▸ mem_chainFrom_head inside apart seen)
      · exact ih later
    grind
  | case3 => cases member

theorem mem_of_nodup_of_length {nodes : List NodeId} {bound : Nat} (distinct : nodes.Nodup)
    (bounded : ∀ id ∈ nodes, id < bound) (full : nodes.length = bound) (below : id < bound) : id ∈ nodes := by
  have all : nodes.toFinset = Finset.range bound := by
    refine Finset.eq_of_subset_of_card_le (fun id member => ?_) ?_
    · exact Finset.mem_range.mpr (bounded id (List.mem_toFinset.mp member))
    · rw [Finset.card_range, List.toFinset_card_of_nodup distinct, full]
  exact List.mem_toFinset.mp (all ▸ Finset.mem_range.mpr below)

theorem onRun_of_mem_chainIds (member : id ∈ chainIds graph parent (some start) stop) :
    OnRun graph parent stop start id := by
  refine onRun_of_mem_chainFrom (fun other same inside apart => ?_) member
  cases same
  exact .start inside apart

/-- The chain from a node lists its run: there is fuel enough to come to the end of it. -/
theorem mem_chainIds : id ∈ chainIds graph parent (some start) stop ↔
    OnRun graph parent stop start id := by
  refine ⟨onRun_of_mem_chainIds, fun run => ?_⟩
  induction run with
  | start inside apart =>
    obtain ⟨fuel, isSize⟩ := Nat.exists_eq_add_of_lt (lt_size_of_parent inside)
    rw [chainIds, isSize]
    exact mem_chainFrom_head inside apart List.not_mem_nil
  | next _ first inside apart ih =>
    have bound := lt_size_of_parent inside
    rcases chainFrom_closed ih first inside apart with listed | seen | full
    · exact listed
    · cases seen
    · refine mem_of_nodup_of_length (nodup_chainFrom ..).1 (fun id member => ?_) full bound
      exact lt_size_of_parent (onRun_of_mem_chainIds member).inside

theorem nodup_chainIds (start : Option NodeId) : (chainIds graph parent start stop).Nodup :=
  (nodup_chainFrom ..).1

@[simp] theorem chainIds_none : chainIds graph parent none stop = [] := by
  simp [chainIds, chainFrom]

/-! Parts -/

/-- The nodes shown as the head of a loop. -/
def OnHead (graph : FlowGraph) (top : NodeId) (loop : Loop) (id : NodeId) : Prop :=
  loop.body ≠ some loop.head ∧ OnRun graph top loop.body loop.head id

/-- The nodes shown as the body of a loop, which stops at the tail unless it begins with it. -/
def OnBody (graph : FlowGraph) (top : NodeId) (loop : Loop) (id : NodeId) : Prop :=
  ∃ body, loop.body = some body ∧ OnRun graph top (if body = loop.tail then none else some loop.tail) body id

/-- A structure shows a node in one of its parts, which are numbered in order. -/
inductive Shows (graph : FlowGraph) (top : NodeId) : Nat → NodeId → Prop
  | entry {parts : Fragment} {start id : NodeId} (kind : (graph.node top).kind = .fragment parts)
      (starts : parts.entry = some start) (run : OnRun graph top none start id) :
      Shows graph top 0 id
  | head {loop : Loop} {id : NodeId} (kind : (graph.node top).kind = .loop loop)
      (run : OnHead graph top loop id) : Shows graph top 0 id
  | body {loop : Loop} {id : NodeId} (kind : (graph.node top).kind = .loop loop)
      (run : OnBody graph top loop id) : Shows graph top 1 id
  | tail {loop : Loop} (kind : (graph.node top).kind = .loop loop)
      (notHead : ¬OnHead graph top loop loop.tail) (notBody : ¬OnBody graph top loop loop.tail) :
      Shows graph top 2 loop.tail
  | operand {parts : Chain} {index : Nat} {start id : NodeId}
      (kind : (graph.node top).kind = .chain parts) (starts : parts.operands[index]? = some start)
      (run : OnRun graph top none start id) : Shows graph top index id
  | condition {parts : Conditional} (kind : (graph.node top).kind = .conditional parts) :
      Shows graph top 0 parts.condition
  | whenTrue {parts : Conditional} {id : NodeId} (kind : (graph.node top).kind = .conditional parts)
      (run : OnRun graph top none parts.whenTrue id) : Shows graph top 1 id
  | otherwise {parts : Conditional} {start id : NodeId}
      (kind : (graph.node top).kind = .conditional parts) (starts : parts.otherwise = some start)
      (run : OnRun graph top none start id) : Shows graph top 2 id
  | cases {parts : Switch} {id : NodeId} (kind : (graph.node top).kind = .switch parts)
      (run : OnRun graph top none parts.cases id) : Shows graph top 0 id
  | switchBody {parts : Switch} {start id : NodeId} (kind : (graph.node top).kind = .switch parts)
      (starts : parts.body = some start) (run : OnRun graph top none start id) :
      Shows graph top 1 id
  | endCases {parts : Switch} {start id : NodeId} (kind : (graph.node top).kind = .switch parts)
      (starts : parts.endCases = some start) (run : OnRun graph top none start id) :
      Shows graph top 2 id
  | initializer {start id : NodeId} (kind : (graph.node top).kind = .staticInit start)
      (run : OnRun graph top none start id) : Shows graph top 0 id

theorem mem_chainIds_option {start : Option NodeId} : id ∈ chainIds graph parent start stop ↔
    ∃ first, start = some first ∧ OnRun graph parent stop first id := by
  cases start with
  | none => simp
  | some first => simp [mem_chainIds]

def partOf (graph : FlowGraph) (top : NodeId) (index : Nat) : List NodeId :=
  ((allSlots graph top)[index]?.map (·.2)).getD []

theorem mem_loopSlots {loop : Loop} :
    id ∈ (((loopSlots graph top loop)[index]?).map (·.2)).getD [] ↔
      index = 0 ∧ OnHead graph top loop id ∨ index = 1 ∧ OnBody graph top loop id ∨
        index = 2 ∧ id = loop.tail ∧ ¬OnHead graph top loop id ∧ ¬OnBody graph top loop id := by
  have onHead (id : NodeId) : id ∈ (if loop.body = some loop.head then []
      else chainIds graph top (some loop.head) loop.body) ↔ OnHead graph top loop id := by
    unfold OnHead
    split
    · next same => simp [same]
    · next apart => simp [apart, mem_chainIds]
  have onBody (id : NodeId) : id ∈ chainIds graph top loop.body
      (if loop.body = some loop.tail then none else some loop.tail) ↔ OnBody graph top loop id := by
    unfold OnBody
    cases loop.body with
    | none => simp
    | some body => simp [mem_chainIds]
  unfold loopSlots
  simp only [onHead, onBody]
  rcases index with _ | _ | _ | index
  · simp [onHead]
  · simp [onBody]
  · simp only [List.getElem?_cons_succ, List.getElem?_cons_zero]
    split <;> grind
  · simp

theorem shows_of_mem_partOf (member : id ∈ partOf graph top index) : Shows graph top index id := by
  unfold partOf allSlots at member
  extract_lets part at member
  have inPart {start : Option NodeId} (listed : id ∈ part start) :
      ∃ first, start = some first ∧ OnRun graph top none first id := mem_chainIds_option.mp listed
  split at member
  · next parts kind =>
    rcases index with _ | index
    · obtain ⟨start, starts, run⟩ := inPart member
      exact .entry kind starts run
    · cases member
  · next loop kind =>
    rcases mem_loopSlots.mp member with ⟨rfl, run⟩ | ⟨rfl, run⟩ | ⟨rfl, rfl, notHead, notBody⟩
    · exact .head kind run
    · exact .body kind run
    · exact .tail kind notHead notBody
  · next parts kind =>
    rw [List.getElem?_map] at member
    cases starts : parts.operands[index]? with
    | none => simp [starts] at member
    | some start =>
      rw [starts] at member
      exact .operand kind starts (mem_chainIds.mp member)
  · next parts kind =>
    rcases index with _ | _ | _ | index
    · rw [List.mem_singleton.mp member]
      exact .condition kind
    · exact .whenTrue kind (mem_chainIds.mp member)
    · cases starts : parts.otherwise with
      | none => simp [starts] at member
      | some start => exact .otherwise kind starts (mem_chainIds.mp (by simpa [starts] using member))
    · cases member
  · next parts kind =>
    rcases index with _ | _ | _ | index
    · exact .cases kind (mem_chainIds.mp member)
    · obtain ⟨start, starts, run⟩ := inPart member
      exact .switchBody kind starts run
    · obtain ⟨start, starts, run⟩ := inPart member
      exact .endCases kind starts run
    · cases member
  · next start kind =>
    rcases index with _ | index
    · exact .initializer kind (mem_chainIds.mp member)
    · cases member
  all_goals cases member

theorem mem_partOf : id ∈ partOf graph top index ↔ Shows graph top index id := by
  refine ⟨shows_of_mem_partOf, fun isShown => ?_⟩
  unfold partOf allSlots
  cases isShown with
  | entry kind starts run => simp [kind, starts, mem_chainIds, run]
  | head kind run => simpa only [kind] using mem_loopSlots.mpr (.inl ⟨rfl, run⟩)
  | body kind run => simpa only [kind] using mem_loopSlots.mpr (.inr (.inl ⟨rfl, run⟩))
  | tail kind notHead notBody =>
    simpa only [kind] using mem_loopSlots.mpr (.inr (.inr ⟨rfl, rfl, notHead, notBody⟩))
  | operand kind starts run => simp [kind, starts, mem_chainIds, run]
  | condition kind => simp [kind]
  | whenTrue kind run => simp [kind, mem_chainIds, run]
  | otherwise kind starts run => simp [kind, starts, mem_chainIds, run]
  | cases kind run => simp [kind, mem_chainIds, run]
  | switchBody kind starts run => simp [kind, starts, mem_chainIds, run]
  | endCases kind starts run => simp [kind, starts, mem_chainIds, run]
  | initializer kind run => simp [kind, mem_chainIds, run]

theorem nodup_of_mem_allSlots {slot : String × List NodeId} (member : slot ∈ allSlots graph top) :
    slot.2.Nodup := by
  have chain (start stop : Option NodeId) : (chainIds graph top start stop).Nodup := nodup_chainIds start
  have apartFrom {skip : Prop} [Decidable skip] {nodes : List NodeId} (distinct : nodes.Nodup) :
      (if skip then [] else nodes).Nodup := by
    split
    · exact .nil
    · exact distinct
  unfold allSlots loopSlots at member
  split at member <;> simp only [List.mem_cons, List.mem_map, List.not_mem_nil, or_false] at member
  · exact member ▸ chain _ _
  · rcases member with rfl | rfl | rfl
    · exact apartFrom (chain _ _)
    · exact chain _ _
    · exact apartFrom (List.nodup_singleton _)
  · obtain ⟨operand, _, rfl⟩ := member
    exact chain _ _
  · next parts _ =>
    rcases member with rfl | rfl | rfl
    · exact List.nodup_singleton _
    · exact chain _ _
    · cases parts.otherwise with
      | none => exact .nil
      | some start => exact chain _ _
  · rcases member with rfl | rfl | rfl <;> exact chain _ _
  · exact member ▸ chain _ _

/-! Descents -/

/-- A way from a node down to another: at each step a part is chosen, and a node in it. -/
inductive Descent (graph : FlowGraph) : NodeId → List (Nat × NodeId) → NodeId → Prop
  | here (top : NodeId) : Descent graph top [] top
  | down {top child id : NodeId} {index : Nat} {path : List (Nat × NodeId)}
      (first : Shows graph top index child) (rest : Descent graph child path id) :
      Descent graph top ((index, child) :: path) id

def descents (graph : FlowGraph) : Nat → NodeId → List (List (Nat × NodeId) × NodeId)
  | 0, _ => []
  | fuel + 1, top =>
    ([], top) :: (allSlots graph top).zipIdx.flatMap fun part =>
      part.1.2.flatMap fun child =>
        (descents graph fuel child).map fun descent => ((part.2, child) :: descent.1, descent.2)

theorem mem_descents_succ :
    (path, id) ∈ descents graph (fuel + 1) top ↔ path = [] ∧ id = top ∨
      ∃ index child rest, path = (index, child) :: rest ∧ Shows graph top index child ∧
        (rest, id) ∈ descents graph fuel child := by
  simp only [descents, List.mem_cons, List.mem_flatMap, List.mem_map, Prod.exists,
    List.mem_zipIdx_iff_getElem?, ← mem_partOf, partOf, Prod.mk.injEq]
  refine or_congr .rfl ⟨?_, ?_⟩
  · rintro ⟨name, part, index, isPart, child, member, rest, last, among, rfl, rfl⟩
    exact ⟨index, child, rest, rfl, by simpa [isPart] using member, among⟩
  · rintro ⟨index, child, rest, rfl, member, among⟩
    cases isPart : (allSlots graph top)[index]? with
    | none => simp [isPart] at member
    | some part =>
      rw [isPart] at member
      exact ⟨part.1, part.2, index, isPart, child, member, rest, id, among, rfl, rfl⟩

theorem mem_descents :
    (path, id) ∈ descents graph fuel top ↔ Descent graph top path id ∧ path.length < fuel := by
  induction fuel generalizing top path with
  | zero => simp [descents]
  | succ fuel ih =>
    rw [mem_descents_succ]
    constructor
    · rintro (⟨rfl, rfl⟩ | ⟨index, child, rest, rfl, first, among⟩)
      · exact ⟨.here _, Nat.zero_lt_succ fuel⟩
      · obtain ⟨descent, short⟩ := ih.mp among
        exact ⟨.down first descent, Nat.succ_lt_succ short⟩
    · rintro ⟨descent, short⟩
      cases descent with
      | here => exact .inl ⟨rfl, rfl⟩
      | down first rest =>
        exact .inr ⟨_, _, _, rfl, first, ih.mpr ⟨rest, Nat.lt_of_succ_lt_succ short⟩⟩

theorem exists_slot_of_shows (isShown : Shows graph top index id) :
    ∃ slot ∈ slotIds graph top, id ∈ slot.2 := by
  have member := mem_partOf.mpr isShown
  unfold partOf at member
  cases isPart : (allSlots graph top)[index]? with
  | none => simp [isPart] at member
  | some slot =>
    rw [isPart] at member
    refine ⟨slot, List.mem_filter.mpr ⟨List.mem_of_getElem? isPart, ?_⟩, member⟩
    simpa using List.ne_nil_of_mem member

/-- The first steps of descents tell the children of a part apart, and their numbers the parts. -/
theorem nodup_descents (fuel : Nat) (top : NodeId) : (descents graph fuel top).Nodup := by
  induction fuel generalizing top with
  | zero => exact .nil
  | succ fuel ih =>
    rw [descents, List.nodup_cons, List.nodup_flatMap]
    refine ⟨by simp, fun part member => ?_, ?_⟩
    · have distinct : part.1.2.Nodup := nodup_of_mem_allSlots (List.fst_mem_of_mem_zipIdx member)
      refine List.nodup_flatMap.mpr ⟨fun child _ => ?_, distinct.imp fun apart => ?_⟩
      · refine (ih child).map fun one two same => ?_
        simp only [Prod.mk.injEq, List.cons.injEq] at same
        exact Prod.ext same.1.2 same.2
      · simp only [Function.onFun, List.disjoint_left, List.mem_map]
        rintro _ ⟨one, _, rfl⟩ ⟨two, _, same⟩
        simp only [Prod.mk.injEq, List.cons.injEq] at same
        exact apart same.1.1.2.symm
    · have numbers : (allSlots graph top).zipIdx.Pairwise fun one two => one.2 ≠ two.2 :=
        List.pairwise_map.mp (List.nodup_zipIdx_map_snd _)
      refine numbers.imp fun apart => ?_
      simp only [Function.onFun, List.disjoint_left, List.mem_flatMap, List.mem_map]
      rintro _ ⟨_, _, one, _, rfl⟩ ⟨_, _, two, _, same⟩
      simp only [Prod.mk.injEq, List.cons.injEq] at same
      exact apart same.1.1.1.symm

/-! Trees -/

mutual

/-- The nodes of a tree, each before its parts. -/
def Tree.ids : Tree → List NodeId
  | .node label slots => label.id :: idsOfSlots slots

def idsOfSlots : List (String × List Tree) → List NodeId
  | [] => []
  | (_, nodes) :: rest => idsOfTrees nodes ++ idsOfSlots rest

def idsOfTrees : List Tree → List NodeId
  | [] => []
  | tree :: rest => tree.ids ++ idsOfTrees rest

end

theorem idsOfTrees_eq_flatMap (trees : List Tree) : idsOfTrees trees = trees.flatMap Tree.ids := by
  induction trees with
  | nil => rw [idsOfTrees, List.flatMap_nil]
  | cons tree rest ih => rw [idsOfTrees, List.flatMap_cons, ih]

theorem idsOfSlots_eq_flatMap (slots : List (String × List Tree)) :
    idsOfSlots slots = slots.flatMap fun slot => idsOfTrees slot.2 := by
  induction slots with
  | nil => rw [idsOfSlots, List.flatMap_nil]
  | cons slot rest ih => rw [idsOfSlots, List.flatMap_cons, ih]

theorem mapM_eq_some_iff {f : α → Option β} {items : List α} {results : List β} :
    items.mapM f = some results ↔ List.Forall₂ (f · = some ·) items results := by
  induction items generalizing results with
  | nil => simp [eq_comm]
  | cons item rest ih =>
    simp [Option.bind_eq_some_iff, List.forall₂_cons_left_iff, ih, @eq_comm _ _ results]

theorem flatMap_of_mapM {γ : Type} {f : α → Option β} {g : β → List γ} {h : α → List γ}
    {items : List α} {results : List β} (mapped : items.mapM f = some results)
    (agree : ∀ item result, f item = some result → g result = h item) :
    results.flatMap g = items.flatMap h := by
  replace mapped := mapM_eq_some_iff.mp mapped
  induction mapped with
  | nil => rfl
  | cons isResult _ ih => rw [List.flatMap_cons, List.flatMap_cons, agree _ _ isResult, ih]

theorem exists_of_mapM {f : α → Option β} {items : List α} {results : List β} {item : α}
    (mapped : items.mapM f = some results) (member : item ∈ items) : ∃ result, f item = some result := by
  replace mapped := mapM_eq_some_iff.mp mapped
  induction mapped with
  | nil => cases member
  | cons isResult _ ih =>
    rcases List.mem_cons.mp member with rfl | later
    · exact ⟨_, isResult⟩
    · exact ih later

theorem labelOf_id (symbols : Symbols) (graph : FlowGraph) (id : NodeId) :
    (labelOf symbols graph id).id = id := by
  unfold labelOf
  dsimp only
  split <;> rfl

/-- Parts with nothing in them make no difference to what is gathered from all. -/
theorem flatMap_slotIds (gather : List NodeId → List α) (nothing : gather [] = []) :
    (slotIds graph top).flatMap (fun slot => gather slot.2) =
      (allSlots graph top).flatMap fun slot => gather slot.2 := by
  rw [slotIds]
  induction allSlots graph top with
  | nil => rfl
  | cons slot rest ih =>
    rw [List.filter_cons]
    split
    · rw [List.flatMap_cons, List.flatMap_cons, ih]
    · next isEmpty =>
      rw [List.flatMap_cons, ih, (by simpa using isEmpty : slot.2 = []), nothing, List.nil_append]

theorem flatMap_zipIdx (gather : α → List β) (items : List α) :
    items.zipIdx.flatMap (fun item => gather item.1) = items.flatMap gather := by
  conv_rhs => rw [← List.zipIdx_map_fst 0 items, List.flatMap_map]

variable {symbols : Symbols} {tree : Tree}

theorem ids_eq_of_exportNode? {fuel : Nat} (exported : exportNode? symbols graph fuel top = some tree) :
    tree.ids = (descents graph fuel top).map (·.2) := by
  induction fuel generalizing top tree with
  | zero => exact absurd exported (by simp [exportNode?])
  | succ fuel ih =>
    simp only [exportNode?, Option.bind_eq_bind, Option.bind_eq_some_iff, Option.pure_def,
      Option.some.injEq] at exported
    obtain ⟨slots, mapped, rfl⟩ := exported
    have children : idsOfSlots slots = (slotIds graph top).flatMap fun slot =>
        slot.2.flatMap fun child => (descents graph fuel child).map (·.2) := by
      rw [idsOfSlots_eq_flatMap]
      refine flatMap_of_mapM mapped fun slot shown isShown => ?_
      obtain ⟨nodes, isNodes, same⟩ := Option.bind_eq_some_iff.mp isShown
      cases same
      rw [idsOfTrees_eq_flatMap]
      exact flatMap_of_mapM isNodes fun child tree => ih
    rw [Tree.ids, labelOf_id, children, descents, List.map_cons, flatMap_slotIds _ rfl]
    simp only [List.map_flatMap, List.map_map, Function.comp_def]
    exact congrArg (top :: ·) (flatMap_zipIdx _ _).symm

theorem Descent.short {fuel : Nat} (descent : Descent graph top path id)
    (exported : exportNode? symbols graph fuel top = some tree) : path.length < fuel := by
  induction descent generalizing fuel tree with
  | here top =>
    cases fuel with
    | zero => exact absurd exported (by simp [exportNode?])
    | succ fuel => exact Nat.zero_lt_succ fuel
  | down first rest ih =>
    cases fuel with
    | zero => exact absurd exported (by simp [exportNode?])
    | succ fuel =>
      simp only [exportNode?, Option.bind_eq_bind, Option.bind_eq_some_iff] at exported
      obtain ⟨slots, mapped, _⟩ := exported
      obtain ⟨slot, among, member⟩ := exists_slot_of_shows first
      obtain ⟨_, isShown⟩ := exists_of_mapM mapped among
      obtain ⟨nodes, isNodes, _⟩ := Option.bind_eq_some_iff.mp isShown
      obtain ⟨child, isChild⟩ := exists_of_mapM isNodes member
      exact Nat.succ_lt_succ (ih isChild)

theorem count_eq_one_iff [DecidableEq β] {pairs : List (α × β)} {value : β}
    (distinct : pairs.Nodup) : (pairs.map (·.2)).count value = 1 ↔ ∃! key, (key, value) ∈ pairs := by
  classical
  have chosen (pair : α × β) :
      pair ∈ pairs.filter ((· == value) ∘ (·.2)) ↔ pair ∈ pairs ∧ pair.2 = value := by simp
  rw [List.count, List.countP_map, List.countP_eq_length_filter,
    ← List.toFinset_card_of_nodup (distinct.filter _), Finset.card_eq_one]
  simp only [Finset.eq_singleton_iff_unique_mem, List.mem_toFinset, chosen]
  constructor
  · rintro ⟨⟨key, last⟩, ⟨member, rfl⟩, only⟩
    exact ⟨key, member, fun other among => congrArg Prod.fst (only (other, last) ⟨among, rfl⟩)⟩
  · rintro ⟨key, member, only⟩
    refine ⟨(key, value), ⟨member, rfl⟩, ?_⟩
    rintro ⟨other, last⟩ ⟨among, rfl⟩
    rw [only other among]

/-- The tree of a node shows another if there is a descent to it, and exactly once if there is
exactly one. -/
theorem ids_of_exportNode? {fuel : Nat} (exported : exportNode? symbols graph fuel top = some tree) :
    (id ∈ tree.ids ↔ ∃ path, Descent graph top path id) ∧
      (tree.ids.count id = 1 ↔ ∃! path, Descent graph top path id) := by
  have listed (path : List (Nat × NodeId)) : (path, id) ∈ descents graph fuel top ↔ Descent graph top path id :=
    mem_descents.trans ⟨And.left, fun descent => ⟨descent, descent.short exported⟩⟩
  rw [ids_eq_of_exportNode? exported, count_eq_one_iff (nodup_descents fuel top)]
  simp [listed]

/-- What a structure shows is a child of it, but for the tail of a loop and a condition. -/
theorem Shows.inside_or {index : Nat} (isShown : Shows graph top index id) :
    (graph.node id).parent = some top ∨
      (∃ loop, (graph.node top).kind = .loop loop ∧ loop.tail = id ∧
        ¬OnHead graph top loop id ∧ ¬OnBody graph top loop id) ∨
      ∃ parts, (graph.node top).kind = .conditional parts ∧ parts.condition = id := by
  cases isShown with
  | entry _ _ run => exact .inl run.inside
  | head _ run => exact .inl run.2.inside
  | body _ run =>
    obtain ⟨_, _, run⟩ := run
    exact .inl run.inside
  | tail kind notHead notBody => exact .inr (.inl ⟨_, kind, rfl, notHead, notBody⟩)
  | operand _ _ run => exact .inl run.inside
  | condition kind => exact .inr (.inr ⟨_, kind, rfl⟩)
  | whenTrue _ run => exact .inl run.inside
  | otherwise _ _ run => exact .inl run.inside
  | cases _ run => exact .inl run.inside
  | switchBody _ _ run => exact .inl run.inside
  | endCases _ _ run => exact .inl run.inside
  | initializer _ run => exact .inl run.inside

def loopedSwitch : String :=
  ":[again]\ndup.v 0\npushi.e 1\ncmp.i.v EQ\nbt [one]\nb [one]\n"
    ++ ":[one]\npush.v self.x\nb [again]\npopz.v"

def leftLoop : String := ":[again]\nb [out]\nb [again]\n:[out]\nexit.i"

end Structuring.Outline
