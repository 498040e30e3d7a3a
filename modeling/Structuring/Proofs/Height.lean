import Structuring.Proofs.Shown

/-! How high the tree of an entry is.

The tree of a node asks for the trees of what it shows. In a finished graph no node asks for its own
tree again, however far down, so the way down from any node is shorter than the graph is large.
-/

namespace Structuring.Outline

open Bytecode Recovery FlowGraph

variable {graph : FlowGraph} {top id : NodeId} {symbols : Symbols} {tree : Tree} {index fuel : Nat}

/-- The tree of one node asks for the tree of another. -/
def AsksFor (graph : FlowGraph) (top id : NodeId) : Prop := ∃ slot ∈ slotIds graph top, id ∈ slot.2

theorem asksFor_iff : AsksFor graph top id ↔ ∃ index, Shows graph top index id := by
  constructor
  · rintro ⟨slot, among, member⟩
    obtain ⟨index, isSlot⟩ := List.mem_iff_getElem?.mp (List.mem_of_mem_filter among)
    refine ⟨index, mem_partOf.mp ?_⟩
    simpa [partOf, isSlot] using member
  · rintro ⟨index, isShown⟩
    exact exists_slot_of_shows isShown

/-! The order in which trees are asked for -/

theorem Shows.owner (isShown : Shows graph top index id) : graph.Owner top := by
  cases isShown with
  | entry kind | head kind | body kind | tail kind | operand kind | condition kind | whenTrue kind
  | otherwise kind | cases kind | switchBody kind | endCases kind | initializer kind =>
    exact .of_kind kind rfl

/-- A structure that is shown is directly inside, or the tail, or the condition. -/
theorem Shows.enters (isShown : Shows graph top index id) (owner : graph.Owner id) : graph.Enters top id :=
  ⟨owner, isShown.inside_or_slot⟩

theorem enters_of_asksFor (path : Relation.TransGen (AsksFor graph) top id) (owner : graph.Owner id) :
    Relation.TransGen graph.Enters top id := by
  induction path with
  | single step =>
    obtain ⟨index, isShown⟩ := asksFor_iff.mp step
    exact .single (isShown.enters owner)
  | tail _ step ih =>
    obtain ⟨index, isShown⟩ := asksFor_iff.mp step
    exact .tail (ih isShown.owner) (isShown.enters owner)

/-- Only structures ask for trees, so a cycle would be one of structures. -/
theorem acyclic_asksFor (ordered : graph.Ordered) (id : NodeId) : ¬Relation.TransGen (AsksFor graph) id id := by
  intro cycle
  obtain ⟨next, first, _⟩ := Relation.TransGen.head'_iff.mp cycle
  obtain ⟨index, isShown⟩ := asksFor_iff.mp first
  exact ordered id (enters_of_asksFor cycle isShown.owner)

theorem AsksFor.lt_size (asks : AsksFor graph top id) (sound : graph.Sound) : id < graph.size := by
  obtain ⟨index, isShown⟩ := asksFor_iff.mp asks
  rcases isShown.inside_or_slot with inside | tail | condition
  · exact lt_size_of_parent inside
  · exact sound.lt_of_mem_slots tail
  · exact sound.lt_of_mem_slots condition

/-! Fuel -/

theorem exists_mapM {α β : Type} {f : α → Option β} {items : List α}
    (each : ∀ item ∈ items, ∃ result, f item = some result) : ∃ results, items.mapM f = some results := by
  induction items with
  | nil => exact ⟨[], rfl⟩
  | cons item rest ih =>
    obtain ⟨result, isResult⟩ := each item (.head _)
    obtain ⟨results, areResults⟩ := ih fun item member => each item (.tail _ member)
    exact ⟨result :: results, by simp [isResult, areResults]⟩

theorem mapM_mono {α β : Type} {f g : α → Option β} {items : List α} {results : List β}
    (mapped : items.mapM f = some results)
    (more : ∀ item result, f item = some result → g item = some result) : items.mapM g = some results :=
  mapM_eq_some_iff.mpr ((mapM_eq_some_iff.mp mapped).imp more)

theorem exportNode?_succ (exported : exportNode? symbols graph fuel top = some tree) :
    exportNode? symbols graph (fuel + 1) top = some tree := by
  induction fuel generalizing top tree with
  | zero => exact absurd exported (by simp [exportNode?])
  | succ fuel ih =>
    rw [exportNode?, Option.bind_eq_bind, Option.bind_eq_some_iff] at exported ⊢
    obtain ⟨slots, mapped, same⟩ := exported
    refine ⟨slots, mapM_mono mapped fun slot shown isShown => ?_, same⟩
    obtain ⟨nodes, areNodes, isSlot⟩ := Option.bind_eq_some_iff.mp isShown
    have again := mapM_mono areNodes fun child tree => ih
    exact Option.bind_eq_some_iff.mpr ⟨nodes, again, isSlot⟩

theorem exportNode?_mono {more : Nat} (exported : exportNode? symbols graph fuel top = some tree)
    (enough : fuel ≤ more) : exportNode? symbols graph more top = some tree := by
  induction enough with
  | refl => exact exported
  | step _ ih => exact exportNode?_succ ih

theorem length_le_of_nodup {nodes : List NodeId} {bound : Nat} (distinct : nodes.Nodup)
    (bounded : ∀ id ∈ nodes, id < bound) : nodes.length ≤ bound := by
  have subset : nodes.toFinset ⊆ Finset.range bound := by
    intro id member
    exact Finset.mem_range.mpr (bounded id (List.mem_toFinset.mp member))
  have card := Finset.card_le_card subset
  rwa [List.toFinset_card_of_nodup distinct, Finset.card_range] at card

/-- The nodes on the way to a node are others than it, so there is fuel left as long as there are
nodes that the way has not come by. -/
theorem exists_exportNode? (symbols : Symbols) (sound : graph.Sound)
    (acyclic : ∀ id, ¬Relation.TransGen (AsksFor graph) id id) {way : List NodeId}
    (distinct : (top :: way).Nodup) (bounded : ∀ other ∈ top :: way, other < graph.size)
    (leads : ∀ other ∈ way, Relation.TransGen (AsksFor graph) other top)
    (enough : graph.size ≤ fuel + way.length) : ∃ tree, exportNode? symbols graph fuel top = some tree := by
  induction fuel generalizing top way with
  | zero =>
    -- The node and those on the way to it are more than there are.
    have few := length_le_of_nodup distinct bounded
    rw [List.length_cons] at few
    omega
  | succ fuel ih =>
    have children (id : NodeId) (asks : AsksFor graph top id) :
        ∃ tree, exportNode? symbols graph fuel id = some tree := by
      have onward : ∀ other ∈ top :: way, Relation.TransGen (AsksFor graph) other id := by
        intro other member
        rcases List.mem_cons.mp member with rfl | before
        · exact .single asks
        · exact .tail (leads other before) asks
      have apart : id ∉ top :: way := fun member => acyclic id (onward id member)
      apply @ih id (top :: way)
      · exact List.nodup_cons.mpr ⟨apart, distinct⟩
      · exact List.forall_mem_cons.mpr ⟨asks.lt_size sound, bounded⟩
      · exact onward
      · rw [List.length_cons]
        omega
    have slots : ∃ slots, ((slotIds graph top).mapM fun slot => do
        let nodes ← slot.2.mapM (exportNode? symbols graph fuel)
        return (slot.1, nodes)) = some slots := by
      apply exists_mapM
      intro slot among
      obtain ⟨nodes, areNodes⟩ := exists_mapM fun id member => children id ⟨slot, among, member⟩
      exact ⟨(slot.1, nodes), by simp [areNodes]⟩
    obtain ⟨slots, areSlots⟩ := slots
    exact ⟨.node (labelOf symbols graph top) slots, by rw [exportNode?, areSlots]; rfl⟩

/-- After a run that succeeds, no tree asks for itself, however far down. So the tree of the entry is
found, and no bound on how far down to go makes a difference from the size of the graph on. -/
theorem export_ends_of_run {name listing : String} {code : Code} {features : Features}
    {outcome : RunOutcome} {final : Session} (assembled : Assembly.assemble name listing = .ok code)
    (done : structureEntry ⟨code, features⟩ = .ok outcome final) :
    (∀ id, ¬Relation.TransGen (AsksFor final.graph) id id) ∧
      ∃ root tree, final.root = some root ∧
        export? code.symbols final.context = some tree ∧
        ∀ fuel, final.graph.size ≤ fuel →
          exportNode? code.symbols final.graph fuel root = some tree := by
  have ordered : InOrder (Source.mk code features).code.instructions :=
    Assembly.inOrder_of_assemble assembled
  have tidied := tidied_of_run ordered (by simp) done
  obtain ⟨edits, complete⟩ := ends_structureEntry ordered done
  have acyclic := acyclic_asksFor tidied.tidy.ordered
  obtain ⟨root, isRoot⟩ := Option.isSome_iff_exists.mp complete.rooted
  have bound := (tidied.sound.root root isRoot).lt
  obtain ⟨tree, exported⟩ : ∃ tree, exportNode? code.symbols final.graph
      final.graph.size root = some tree :=
    exists_exportNode? code.symbols tidied.sound.graph acyclic (List.nodup_singleton root)
      (by simpa using bound) (by simp) (by simp)
  refine ⟨acyclic, root, tree, isRoot, ?_, fun fuel enough => exportNode?_mono exported enough⟩
  rw [export?, isRoot]
  exact exported

theorem export_ends_of_run_loopedSwitch :
    ∃ code outcome final, Assembly.assemble "entry" loopedSwitch = .ok code ∧
      structureEntry ⟨code, .all⟩ = .ok outcome final ∧
      ∃ tree, export? code.symbols final.context = some tree := by
  obtain ⟨code, outcome, final, assembled, done, _⟩ :=
    exists_of_evaluates "entry" loopedSwitch (structureEntry ⟨·, .all⟩) (fun _ _ _ => True) (by decide +kernel)
  obtain ⟨_, _, tree, _, exported, _⟩ := export_ends_of_run assembled done
  exact ⟨code, outcome, final, assembled, done, tree, exported⟩

end Structuring.Outline
