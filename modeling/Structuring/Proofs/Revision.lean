import Structuring.Proofs.Edit

/-! Steps of a recovery as edits of a session.

A session is sound if its graph is, its list of blocks is exact, and every other number in it is
one of a node. `Revises` says of a step that it gets along by edits, whether it returns or fails,
and what holds if it returns. Its rules follow the way steps are put together.
-/

namespace Structuring.Recovery

open Bytecode FlowGraph

variable {α β ι : Type} {rights less : Rights} {session next final : Session} {id : NodeId}
  {f : FlowGraph → FlowGraph} {parent level : Option NodeId} {start stop : Nat} {event : Event}

def SwitchLocation.nodes (location : SwitchLocation) : List NodeId :=
  location.fragment :: location.casesBlock :: location.jumpBlock :: location.endBlock :: location.compareBlocks

def Claims.nodes (claims : Claims) : List NodeId :=
  claims.switches.flatMap (·.nodes) ++ claims.blocks

theorem Claims.mem_nodes {claims : Claims} {location : SwitchLocation} {id : NodeId}
    (member : location ∈ claims.switches) (among : id ∈ location.nodes) : id ∈ claims.nodes :=
  List.mem_append_left _ (List.mem_flatMap.mpr ⟨location, member, among⟩)

theorem Claims.jumpBlock_mem_nodes {claims : Claims} {location : SwitchLocation}
    (member : location ∈ claims.switches) : location.jumpBlock ∈ claims.nodes :=
  mem_nodes member (by simp [SwitchLocation.nodes])

def Context.structures (context : Context) : List NodeId :=
  context.loops ++ context.chains ++ context.conditionals ++ context.switches ++ context.staticInits

namespace Session

/-- What holds of a session at every point of every run. -/
structure Sound (session : Session) : Prop where
  graph : session.graph.Sound
  blocks : ∀ id, id ∈ session.blocks ↔ (session.graph.node id).kind.isBlock = true
  root : ∀ id, session.root = some id → session.graph.Owner id
  fragments : ∀ id ∈ session.fragments, session.graph.Owner id
  structures : ∀ id ∈ session.context.structures, session.graph.Owner id
  claims : ∀ id ∈ session.claims.nodes, id < session.graph.size

theorem sound_empty : Sound {} := by
  refine ⟨FlowGraph.sound_empty, fun id => ?_, ?_, ?_, ?_, ?_⟩
  · rw [node_of_size_le (Nat.zero_le id)]
    simp [Node.absent, Kind.isBlock]
  all_goals simp [Context.structures, Claims.nodes]

def withGraph (session : Session) (graph : FlowGraph) : Session :=
  { session with graph }

section

variable (session : Session) (graph : FlowGraph)

@[simp] theorem withGraph_graph : (session.withGraph graph).graph = graph := rfl

@[simp] theorem withGraph_blocks : (session.withGraph graph).blocks = session.blocks := rfl

@[simp] theorem withGraph_withGraph (next : FlowGraph) :
    (session.withGraph graph).withGraph next = session.withGraph next := rfl

end

end Session

inductive Edit (rights : Rights) (session : Session) : Session → Prop
  | graph (graph : FlowGraph) (edit : GraphEdit rights session.graph graph) :
      Edit rights session (session.withGraph graph)
  | block (parts : Block) (start stop : Nat) (free : rights.cuts) :
      Edit rights session
        { session with
          graph := session.graph.addNode (.block parts) start stop none
          blocks := session.blocks ++ [session.graph.size] }
  | fragments (root : Option NodeId) (fragments : List NodeId) (free : rights.founds)
      (keeps : ∀ id, session.root = some id → root = some id)
      (known : ∀ id, root = some id → session.graph.Owner id)
      (owners : ∀ id ∈ fragments, session.graph.Owner id) :
      Edit rights session { session with root, fragments }
  | record (context : Context) (graph : context.graph = session.graph)
      (blocks : context.blocks = session.blocks)
      (root : context.root = session.root)
      (fragments : context.fragments = session.fragments)
      (owners : ∀ id ∈ context.structures, session.graph.Owner id) :
      Edit rights session ⟨context, session.claims, session.log⟩
  | claims (claims : Claims) (free : rights.claims)
      (known : ∀ id ∈ claims.nodes, id < session.graph.size) :
      Edit rights session { session with claims }
  | tell (event : Event) : Edit rights session { session with log := session.log.push event }

namespace Edit

theorem maintains (edit : Edit rights session next) : Maintains session.graph next.graph := by
  cases edit with
  | graph graph edit => exact edit.maintains
  | block parts start stop _ =>
    refine maintains_addNode start stop ?_ ?_
    · exact List.forall_mem_nil _
    · exact fun _ _ same => absurd same (by simp)
  | fragments root fragments _ _ _ _ => exact .refl _
  | record context graph _ _ _ _ => exact graph ▸ .refl _
  | claims claims _ _ => exact .refl _
  | tell event => exact .refl _

theorem sound (edit : Edit rights session next) (sound : session.Sound) : next.Sound := by
  have grows := edit.maintains.grows
  have graphSound := edit.maintains.sound sound.graph
  have root : ∀ id, session.root = some id → next.graph.Owner id :=
    fun id isRoot => grows.owner (sound.root id isRoot)
  have fragments : ∀ id ∈ session.fragments, next.graph.Owner id :=
    fun id member => grows.owner (sound.fragments id member)
  have structures : ∀ id ∈ session.context.structures, next.graph.Owner id :=
    fun id member => grows.owner (sound.structures id member)
  have claims : ∀ id ∈ session.claims.nodes, id < next.graph.size :=
    fun id member => grows.lt (sound.claims id member)
  cases edit with
  | graph graph edit =>
    refine ⟨graphSound, fun id => ?_, root, fragments, structures, claims⟩
    exact (sound.blocks id).trans (iff_of_eq (congrArg (· = true) (edit.isBlock_eq id).symm))
  | block parts start stop _ =>
    refine ⟨graphSound, fun id => ?_, root, fragments, structures, claims⟩
    rw [node_addNode]
    have listed := sound.blocks id
    by_cases here : id = session.graph.size
    · simp [here, Kind.isBlock]
    · simpa [here] using listed
  | fragments root fragments _ _ known owners =>
    exact ⟨graphSound, sound.blocks, known, owners, structures, claims⟩
  | record context graph blocks sameRoot sameFragments owners =>
    have listed := sound.blocks
    rw [← graph, ← blocks] at listed
    rw [← graph] at owners
    exact ⟨graphSound, listed, fun id isRoot => root id (sameRoot ▸ isRoot),
      fun id member => fragments id (sameFragments ▸ member), owners, claims⟩
  | claims claims _ known =>
    exact ⟨graphSound, sound.blocks, root, fragments, structures, known⟩
  | tell event => exact ⟨graphSound, sound.blocks, root, fragments, structures, claims⟩

theorem mono (within : less.Within rights) (edit : Edit less session next) :
    Edit rights session next := by
  cases edit with
  | graph graph edit => exact .graph graph (edit.mono within)
  | block parts start stop free => exact .block parts start stop (within.cuts free)
  | fragments root fragments free keeps known owners =>
    exact .fragments root fragments (within.founds free) keeps known owners
  | record context graph blocks root fragments owners =>
    exact .record context graph blocks root fragments owners
  | claims claims free known => exact .claims claims (within.claims free) known
  | tell event => exact .tell event

end Edit

/-- Any number of edits. -/
abbrev Edits (rights : Rights) : Session → Session → Prop := Relation.ReflTransGen (Edit rights)

namespace Edits

theorem trans (first : Edits rights session next) (second : Edits rights next final) :
    Edits rights session final := Relation.ReflTransGen.trans first second

theorem sound (edits : Edits rights session next) (sound : session.Sound) : next.Sound := by
  induction edits with
  | refl => exact sound
  | tail _ edit ih => exact edit.sound ih

theorem grows (edits : Edits rights session next) : Grows session.graph next.graph := by
  induction edits with
  | refl => exact .refl _
  | tail _ edit ih => exact ih.trans edit.maintains.grows

theorem mono (within : less.Within rights) (edits : Edits less session next) :
    Edits rights session next := by
  induction edits with
  | refl => exact .refl
  | tail _ edit ih => exact ih.tail (edit.mono within)

theorem of_graph {graph : FlowGraph} (edits : GraphEdits rights session.graph graph) :
    Edits rights session (session.withGraph graph) := by
  induction edits with
  | refl => exact .refl
  | tail _ edit ih => exact ih.tail (.graph _ edit)

section

variable (edits : Edits rights session next)

include edits

theorem lt (bound : id < session.graph.size) :
    id < next.graph.size := edits.grows.lt bound

theorem owner (owner : session.graph.Owner id) :
    next.graph.Owner id := edits.grows.owner owner

theorem encloser (encloser : session.graph.Encloser id) :
    next.graph.Encloser id := edits.grows.encloser encloser

theorem isLevel (isLevel : session.graph.IsLevel level) : next.graph.IsLevel level :=
  edits.grows.isLevel isLevel

theorem proper (bound : id < session.graph.size) (proper : (session.graph.node id).kind ≠ .sentinel .empty) :
    (next.graph.node id).kind ≠ .sentinel .empty := by
  intro empty
  have becomes := (edits.grows.nodes id bound).kind
  rw [empty] at becomes
  exact proper becomes.eq_sentinel

theorem sentinel {which : Sentinel} (isSentinel : (session.graph.node id).kind = .sentinel which)
    (bound : id < session.graph.size) : (next.graph.node id).kind = .sentinel which := by
  have becomes := (edits.grows.nodes id bound).kind
  rw [isSentinel] at becomes
  exact becomes.sentinel_eq

theorem parent_eq (still : ¬rights.encloses) (bound : id < session.graph.size)
    (proper : (session.graph.node id).kind ≠ .sentinel .empty)
    (apart : rights.owns → (session.graph.node id).kind.isBlock = false) :
    (next.graph.node id).parent = (session.graph.node id).parent := by
  induction edits with
  | refl => rfl
  | @tail middle final before edit ih =>
    have becomes := (Edits.grows before).nodes id bound
    have inside := Edits.lt before bound
    refine Eq.trans ?_ ih
    cases edit with
    | graph graph edit =>
      refine edit.parent_eq still inside (fun empty => proper ?_) fun free => ?_
      · exact Kind.Becomes.eq_sentinel (empty ▸ becomes.kind)
      · exact becomes.kind.isBlock.trans (apart free)
    | block parts start stop _ => exact parent_addNode _ _ _ _ inside
    | record context graph _ _ _ _ => rw [graph]
    | fragments _ _ _ _ _ _ | claims _ _ _ | tell _ => rfl

end

theorem parent_of_staying (edits : Edits rights session next) (still : ¬rights.encloses)
    (structured : session.graph.Owner id) :
    (next.graph.node id).parent = (session.graph.node id).parent := by
  refine edits.parent_eq still structured.lt (fun empty => ?_) fun _ => ?_
  · rw [Owner, empty] at structured
    exact Bool.false_ne_true structured
  · rw [Owner] at structured
    cases kind : (session.graph.node id).kind <;>
      simp_all [Kind.isBlock, Kind.isStructure]

section

variable (edits : Edits rights session next)

include edits

theorem isBlock (isBlock : (session.graph.node id).kind.isBlock = true) :
    (next.graph.node id).kind.isBlock = true :=
  (edits.grows.nodes id (lt_size_of_isBlock isBlock)).kind.isBlock.trans isBlock

/-- Without the right to make blocks, the same nodes are blocks as before. -/
theorem isBlock_eq (settled : ¬rights.cuts) (id : NodeId) :
    (next.graph.node id).kind.isBlock = (session.graph.node id).kind.isBlock := by
  induction edits with
  | refl => rfl
  | tail _ edit ih =>
    refine Eq.trans ?_ ih
    cases edit with
    | graph graph edit => exact edit.isBlock_eq id
    | block parts start stop free => exact absurd free settled
    | record context graph _ _ _ _ => rw [graph]
    | fragments _ _ _ _ _ _ | claims _ _ _ | tell _ => rfl

theorem fragmentBlocks_eq (settled : ¬rights.owns) (fragment : NodeId) :
    fragmentBlocks next.graph fragment = fragmentBlocks session.graph fragment := by
  induction edits with
  | refl => rfl
  | tail _ edit ih =>
    refine Eq.trans ?_ ih
    cases edit with
    | graph graph edit => exact edit.fragmentBlocks_eq settled fragment
    | block parts start stop _ => exact fragmentBlocks_addNode rfl start stop none fragment
    | record context graph _ _ _ _ => rw [graph]
    | fragments _ _ _ _ _ _ | claims _ _ _ | tell _ => rfl

theorem blocks_eq (settled : ¬rights.cuts) : next.blocks = session.blocks := by
  induction edits with
  | refl => rfl
  | tail _ edit ih =>
    refine Eq.trans ?_ ih
    cases edit with
    | block parts start stop free => exact absurd free settled
    | record context _ blocks _ _ _ => exact blocks
    | graph _ _ | fragments _ _ _ _ _ _ | claims _ _ _ | tell _ => rfl

theorem root_eq (isRoot : session.root = some id) : next.root = some id := by
  induction edits with
  | refl => exact isRoot
  | tail _ edit ih =>
    cases edit with
    | fragments _ _ _ keeps _ _ => exact keeps id ih
    | record _ _ _ root _ _ => exact root.trans ih
    | graph _ _ | block _ _ _ _ | claims _ _ _ | tell _ => exact ih

theorem claims_eq (settled : ¬rights.claims) : next.claims = session.claims := by
  induction edits with
  | refl => rfl
  | tail _ edit ih =>
    refine Eq.trans ?_ ih
    cases edit with
    | claims claims free _ => exact absurd free settled
    | graph _ _ | block _ _ _ _ | fragments _ _ _ _ _ _ | record _ _ _ _ _ _ | tell _ => rfl

end

end Edits

/-! Steps -/

/-- What holds after a step, with the value that it returned or the failure that it met. -/
def Ends (step : Recover α) (session : Session) (done : α → Session → Prop)
    (failed : Failure → Session → Prop) : Prop :=
  match step.run session with
  | .ok value next => done value next
  | .error failure next => failed failure next

section

variable {step : Recover α} {done more : α → Session → Prop} {failed worse : Failure → Session → Prop}

theorem Ends.imp (ends : Ends step session done failed)
    (returns : ∀ value next, done value next → more value next)
    (fails : ∀ failure next, failed failure next → worse failure next) :
    Ends step session more worse := by
  unfold Ends at ends ⊢
  cases result : step.run session with
  | ok value next =>
    rw [result] at ends
    exact returns value next ends
  | error failure next =>
    rw [result] at ends
    exact fails failure next ends

theorem ends_bind {rest : α → Recover β} {done : β → Session → Prop} :
    Ends (step >>= rest) session done failed ↔
      Ends step session (fun value next => Ends (rest value) next done failed) failed := by
  change (match EStateM.bind step rest session with | .ok _ _ => _ | .error _ _ => _) ↔
    match step session with | .ok _ _ => _ | .error _ _ => _
  unfold EStateM.bind
  cases step session <;> rfl

end

def Failure.isExpected : Failure → Bool
  | .invariant _ _ => false
  | _ => true

def Yields (result : Except Failure α) (good : α → Prop)
    (failed : Failure → Prop := fun failure => failure.isExpected = true) : Prop :=
  match result with
  | .ok value => good value
  | .error failure => failed failure

namespace Yields

variable {result : Except Failure α} {good : α → Prop} {failed : Failure → Prop}

theorem bind {rest : α → Except Failure β} {better : β → Prop} (first : Yields result good failed)
    (second : ∀ value, good value → Yields (rest value) better failed) :
    Yields (result >>= rest) better failed := by
  cases result with
  | ok value => exact second value first
  | error failure => exact first

theorem mapM {items : List α} {f : α → Except Failure β} {each : α → β → Prop}
    (holds : ∀ item ∈ items, Yields (f item) (each item) failed) :
    Yields (items.mapM f) (fun values => ∀ value ∈ values, ∃ item ∈ items, each item value) failed := by
  induction items with
  | nil => exact fun value member => absurd member List.not_mem_nil
  | cons first rest ih =>
    rw [List.mapM_cons]
    refine .bind (holds first (.head _)) fun value good => ?_
    refine .bind (ih fun item member => holds item (.tail _ member)) fun values known => ?_
    intro found member
    rcases List.mem_cons.mp member with rfl | member
    · exact ⟨first, .head _, good⟩
    · obtain ⟨item, among, holds⟩ := known found member
      exact ⟨item, .tail _ among, holds⟩

end Yields

/-- A step edits a sound session, and if it fails, it does so for a reason in the code entry. If it
returns, it ends as described. -/
structure Revises (rights : Rights) (step : Recover α) (session : Session)
    (post : α → Session → Prop) : Prop where
  ends : session.Sound →
    Ends step session (fun value next => Edits rights session next ∧ post value next)
      (fun failure next => Edits rights session next ∧ failure.isExpected = true)

namespace Revises

variable {step : Recover α} {rest : α → Recover β} {post : α → Session → Prop}
  {last : β → Session → Prop}

theorem of_sound (holds : session.Sound → Revises rights step session post) :
    Revises rights step session post := ⟨fun sound => (holds sound).ends sound⟩

theorem imp {other : α → Session → Prop} (revises : Revises rights step session post)
    (weaker : ∀ value next, post value next → other value next) : Revises rights step session other :=
  ⟨fun sound => (revises.ends sound).imp
    (fun value next ends => ⟨ends.1, weaker value next ends.2⟩) fun _ _ => id⟩

theorem and {other : α → Session → Prop} (first : Revises rights step session post)
    (second : Revises rights step session other) :
    Revises rights step session fun value next => post value next ∧ other value next := by
  constructor
  intro sound
  have first := first.ends sound
  have second := second.ends sound
  unfold Ends at first second ⊢
  split
  · next value next isOk =>
    rw [isOk] at first second
    exact ⟨first.1, first.2, second.2⟩
  · next failure next isError =>
    rw [isError] at first
    exact first

theorem any (revises : Revises rights step session post) : Revises rights step session fun _ _ => True :=
  revises.imp fun _ _ _ => trivial

/-- A step that keeps to fewer rights. What follows from the fewer rights stays known. -/
theorem mono (within : less.Within rights) (revises : Revises less step session post) :
    Revises rights step session fun value next => Edits less session next ∧ post value next :=
  ⟨fun sound => (revises.ends sound).imp (fun _ _ ends => ⟨ends.1.mono within, ends⟩)
    fun _ _ ends => ⟨ends.1.mono within, ends.2⟩⟩

theorem pure {value : α} (holds : post value session) : Revises rights (Pure.pure value) session post :=
  ⟨fun _ => ⟨.refl, holds⟩⟩

theorem throw {failure : Failure} (expected : failure.isExpected = true) :
    Revises rights (MonadExcept.throw failure) session post :=
  ⟨fun _ => ⟨.refl, expected⟩⟩

theorem throw_bind {failure : Failure} (expected : failure.isExpected = true) :
    Revises rights (MonadExcept.throw failure >>= rest) session last :=
  ⟨fun _ => ⟨.refl, expected⟩⟩

theorem bind_within (within : less.Within rights) (first : Revises less step session post)
    (second : ∀ value next, next.Sound → Edits less session next → post value next →
      Revises rights (rest value) next last) :
    Revises rights (step >>= rest) session last := by
  constructor
  intro sound
  refine ends_bind.mpr ((first.ends sound).imp (fun value next ends => ?_) fun _ _ ends => ?_)
  · have known := ends.1.sound sound
    have before := ends.1.mono within
    exact ((second value next known ends.1 ends.2).ends known).imp
      (fun _ _ after => ⟨before.trans after.1, after.2⟩)
      fun _ _ after => ⟨before.trans after.1, after.2⟩
  · exact ⟨ends.1.mono within, ends.2⟩

theorem bind (first : Revises rights step session post)
    (second : ∀ value next, next.Sound → Edits rights session next → post value next →
      Revises rights (rest value) next last) :
    Revises rights (step >>= rest) session last := bind_within (.refl rights) first second

theorem of_edit (edit : Edit rights session next)
    (second : next.Sound → Edits rights session next →
      Ends step session (fun value final => Edits rights next final ∧ post value final)
        fun failure final => Edits rights next final ∧ failure.isExpected = true) :
    Revises rights step session post :=
  ⟨fun sound => (second (edit.sound sound) (.single edit)).imp
    (fun _ _ after => ⟨.head edit after.1, after.2⟩) fun _ _ after => ⟨.head edit after.1, after.2⟩⟩

/-! Reading and writing the session -/

theorem getGraph_bind {rest : FlowGraph → Recover β}
    (second : Revises rights (rest session.graph) session last) :
    Revises rights (getGraph >>= rest) session last :=
  ⟨fun sound => ends_bind.mpr (second.ends sound)⟩

theorem getContext_bind {rest : Context → Recover β}
    (second : Revises rights (rest session.context) session last) :
    Revises rights (getContext >>= rest) session last :=
  ⟨fun sound => ends_bind.mpr (second.ends sound)⟩

theorem getClaims_bind {rest : Claims → Recover β}
    (second : Revises rights (rest session.claims) session last) :
    Revises rights (getClaims >>= rest) session last :=
  ⟨fun sound => ends_bind.mpr (second.ends sound)⟩

theorem tell (event : Event) :
    Revises rights (Recovery.tell event) session fun _ next =>
      next.context = session.context ∧ next.claims = session.claims :=
  ⟨fun _ => ⟨.single (.tell event), rfl, rfl⟩⟩

theorem modifyGraph (edits : GraphEdits rights session.graph (f session.graph)) :
    Revises rights (Recovery.modifyGraph f) session fun _ next => next = session.withGraph (f session.graph) :=
  ⟨fun _ => ⟨.of_graph edits, rfl⟩⟩

theorem modifyGraph_bind {rest : Unit → Recover β} (edits : GraphEdits rights session.graph (f session.graph))
    (second : ∀ next, next.Sound → Edits rights session next →
      next.graph = f session.graph → Revises rights (rest ()) next last) :
    Revises rights (Recovery.modifyGraph f >>= rest) session last :=
  .bind (.modifyGraph edits) fun _ next sound before same =>
    second next sound before (same ▸ rfl)

theorem modifyGraph_staying {rest : Unit → Recover β}
    (edits : GraphEdits rights.staying session.graph (f session.graph))
    (second : ∀ next, next.Sound → Edits rights.staying session next →
      next.graph = f session.graph → Revises rights (rest ()) next last) :
    Revises rights (Recovery.modifyGraph f >>= rest) session last :=
  .bind_within rights.staying_within (.modifyGraph edits) fun _ next sound before same =>
    second next sound before (same ▸ rfl)

theorem addNode {kind : Kind} (plain : kind.isPlain = true)
    (slots : ∀ ref ∈ kind.references, ref < session.graph.size) (level : session.graph.IsLevel parent) :
    Revises rights (Recovery.addNode kind start stop parent) session fun id next =>
      id = session.graph.size ∧ next = session.withGraph (session.graph.addNode kind start stop parent) :=
  ⟨fun _ => ⟨.of_graph (GraphEdit.addNode kind start stop parent plain slots level).one, rfl, rfl⟩⟩

theorem addNode_bind {kind : Kind} {rest : NodeId → Recover β} (plain : kind.isPlain = true)
    (slots : ∀ ref ∈ kind.references, ref < session.graph.size) (level : session.graph.IsLevel parent)
    (second : ∀ id next, next.Sound → Edits rights session next → id < next.graph.size →
      next.graph.node id = { start, stop, parent, kind } →
      next = session.withGraph (session.graph.addNode kind start stop parent) →
      Revises rights (rest id) next last) :
    Revises rights (Recovery.addNode kind start stop parent >>= rest) session last := by
  refine .bind (.addNode plain slots level) fun id next sound before same => ?_
  obtain ⟨rfl, rfl⟩ := same
  refine second _ _ sound before ?_ ?_ rfl
  · simp [Session.withGraph]
  · simp [Session.withGraph, node_addNode]

theorem addFragment {name : String} (free : rights.founds) (level : session.graph.IsLevel parent) :
    Revises rights (Recovery.addNode (.fragment ⟨name, none, []⟩) start stop parent) session
      fun id next => (∃ parts, (next.graph.node id).kind = .fragment parts) ∧
        next = session.withGraph (session.graph.addNode (.fragment ⟨name, none, []⟩) start stop parent) := by
  refine ⟨fun _ => ⟨.single (.graph _ (.addFragment name start stop parent free level)),
    ⟨⟨name, none, []⟩, ?_⟩, rfl⟩⟩
  simp [node_addNode]

theorem ensureClosed (owner : NodeId) :
    Revises rights (Recovery.ensureClosed owner) session fun _ next =>
      next = session ∧ next.graph.leak? owner = none := by
  refine .getGraph_bind ?_
  cases isOpen : openFailure? session.graph owner with
  | none => exact .pure ⟨rfl, Option.map_eq_none_iff.mp isOpen⟩
  | some failure =>
    obtain ⟨child, _, rfl⟩ := Option.map_eq_some_iff.mp isOpen
    exact .throw rfl

section

variable {owner : NodeId} (free : rights.encloses) (structured : session.graph.Encloser owner)
  (onLevel : (session.graph.node owner).parent = level)
  (grounded : rights.reshapes ∨ session.graph.Grounded owner level)

include free structured onLevel grounded

theorem enclose :
    Revises rights (Recovery.enclose owner level start stop) session fun _ next =>
      next = session.withGraph (session.graph.absorb owner level start stop) ∧
        next.graph.leak? owner = none := by
  have absorbs := (GraphEdit.absorb owner level start stop free structured onLevel grounded).one
  refine .bind (.modifyGraph absorbs) fun _ next _ _ same => ?_
  exact (ensureClosed owner).imp fun _ _ kept => ⟨kept.1.trans same, kept.2⟩

end

/-- A structure that is no loop takes in nodes after edits that have left it on its level. -/
theorem enclose_bind {made : Session} {owner : NodeId} {rest : Unit → Recover β} (free : rights.encloses)
    (staying : Edits rights.staying made session) (structured : made.graph.Encloser owner)
    (onLevel : (made.graph.node owner).parent = level) (apart : ∀ parts, (made.graph.node owner).kind ≠ .loop parts)
    (second : ∀ next, next.Sound → Edits rights session next → Revises rights (rest ()) next last) :
    Revises rights (Recovery.enclose owner level start stop >>= rest) session last :=
  .bind (.enclose free (staying.encloser structured) ((staying.parent_of_staying id structured.owner).trans onLevel)
    (.inr (staying.grows.grounded structured.owner.lt apart))) fun _ next sound before _ => second next sound before

theorem tell_bind {rest : Unit → Recover β}
    (second : ∀ next, next.Sound → Edits rights session next → next.context = session.context →
      Revises rights (rest ()) next last) :
    Revises rights (Recovery.tell event >>= rest) session last :=
  .bind (.tell event) fun _ next sound before same => second next sound before same.1

/-- A block is made and listed. Between these two steps the list of blocks is not exact, so they
count as one edit. -/
theorem addBlock_bind {parts : Block} {rest : Recover β} (free : rights.cuts)
    (second : ∀ next, next.Sound → Edits rights session next →
      next.graph = session.graph.addNode (.block parts) start stop none →
      next.blocks = session.blocks ++ [session.graph.size] →
      Revises rights rest next last) :
    Revises rights
      (do
        let id ← Recovery.addNode (.block parts) start stop none
        modifyContext fun context => { context with blocks := context.blocks ++ [id] }
        rest)
      session last :=
  .of_edit (.block parts start stop free) fun sound before =>
    ends_bind.mpr (ends_bind.mpr ((second _ sound before rfl rfl).ends sound))

theorem modifyClaims {f : Claims → Claims} (free : rights.claims)
    (known : ∀ id ∈ (f session.claims).nodes, id < session.graph.size) :
    Revises rights (Recovery.modifyClaims f) session fun _ next =>
      next = { session with claims := f session.claims } :=
  ⟨fun _ => ⟨.single (.claims _ free known), rfl⟩⟩

theorem clearSwitches (free : rights.claims) :
    Revises rights (Recovery.modifyClaims ({ · with switches := [] })) session fun _ next =>
      next = { session with claims := { session.claims with switches := [] } } :=
  .of_sound fun sound => .modifyClaims free fun id member =>
    sound.claims id (List.mem_append_right _ (by simpa [Claims.nodes] using member))

theorem modifyFragments {f : Context → Context} {root : Option NodeId} {fragments : List NodeId}
    (free : rights.founds) (same : f session.context = { session.context with root, fragments })
    (keeps : ∀ id, session.root = some id → root = some id)
    (known : ∀ id, root = some id → session.graph.Owner id)
    (owners : ∀ id ∈ fragments, session.graph.Owner id) :
    Revises rights (modifyContext f) session fun _ next =>
      next.context = { session.context with root, fragments } := by
  have edit := Edit.fragments root fragments free keeps known owners
  rw [← same] at edit ⊢
  exact ⟨fun _ => ⟨.single edit, rfl⟩⟩

theorem record {f : Context → Context} (graph : (f session.context).graph = session.graph)
    (blocks : (f session.context).blocks = session.blocks) (root : (f session.context).root = session.root)
    (fragments : (f session.context).fragments = session.fragments)
    (owners : ∀ id ∈ (f session.context).structures, session.graph.Owner id) :
    Revises rights (modifyContext f) session fun _ next => next.graph = session.graph :=
  ⟨fun _ => ⟨.single (.record _ graph blocks root fragments owners), graph⟩⟩

theorem announce {owner : NodeId} {f : Context → Context}
    (structured : session.graph.Owner owner)
    (graph : ∀ context, (f context).graph = context.graph := by intro; rfl)
    (blocks : ∀ context, (f context).blocks = context.blocks := by intro; rfl)
    (root : ∀ context, (f context).root = context.root := by intro; rfl)
    (fragments : ∀ context, (f context).fragments = context.fragments := by intro; rfl)
    (owners : ∀ context, ∀ id ∈ (f context).structures, id = owner ∨ id ∈ context.structures := by
      simp only [Context.structures, List.mem_append, List.mem_cons]
      grind) :
    Revises rights (do Recovery.tell event; modifyContext f) session fun _ next =>
      next.graph = session.graph := by
  refine .tell_bind fun told sound _ same => ?_
  rw [← same] at structured ⊢
  refine .record (graph _) (blocks _) (root _) (fragments _) fun id member => ?_
  rcases owners told.context id member with rfl | old
  · exact structured
  · exact sound.structures id old

/-! Repetition -/

theorem forKeep {items : List ι} {f : ι → Recover Unit} (holds : Session → Prop) (first : holds session)
    (each : ∀ item ∈ items, ∀ next, Edits rights session next → holds next →
      Revises rights (f item) next fun _ final => holds final) :
    Revises rights (items.forM f) session fun _ next => holds next := by
  induction items generalizing session with
  | nil => exact .pure first
  | cons item others ih =>
    refine .bind (each item (.head _) session .refl first) fun _ next _ before kept => ?_
    exact ih kept fun other member final later =>
      each other (.tail _ member) final (before.trans later)

theorem forEach {items : List ι} {f : ι → Recover Unit}
    (each : ∀ item ∈ items, ∀ next, Edits rights session next → Revises rights (f item) next fun _ _ => True) :
    Revises rights (items.forM f) session fun _ _ => True :=
  forKeep (fun _ => True) trivial fun item member next before _ => each item member next before

/-- One step for each item. What a step achieves must outlast the later ones. -/
theorem forM {items : List ι} {f : ι → Recover Unit} (done : ι → Session → Prop)
    (lasts : ∀ item ∈ items, ∀ first second, Edits rights session first →
      Edits rights first second → done item first → done item second)
    (each : ∀ item ∈ items, ∀ next, Edits rights session next →
      Revises rights (f item) next fun _ final => done item final) :
    Revises rights (items.forM f) session fun _ next => ∀ item ∈ items, done item next := by
  induction items generalizing session with
  | nil => exact .pure fun item member => absurd member List.not_mem_nil
  | cons first others ih =>
    refine .bind (each first (.head _) session .refl) fun _ next _ before achieved => ?_
    have rest := ih (fun item member start final toStart =>
        lasts item (.tail _ member) start final (before.trans toStart))
      fun item member final later => each item (.tail _ member) final (before.trans later)
    refine .imp (.mono (.refl rights) rest) fun _ final known item member => ?_
    rcases List.mem_cons.mp member with rfl | member
    · exact lasts item (.head _) next final before known.1 achieved
    · exact known.2 item member

theorem foldlM {γ : Type} {items : List ι} {f : γ → ι → Recover γ} {start : γ}
    (holds : γ → Session → Prop) (first : holds start session)
    (each : ∀ item ∈ items, ∀ value next, Edits rights session next → holds value next →
      Revises rights (f value item) next holds) :
    Revises rights (items.foldlM f start) session holds := by
  induction items generalizing session start with
  | nil => exact .pure first
  | cons item others ih =>
    refine .bind (each item (.head _) start session .refl first) fun value next _ before holds => ?_
    exact ih holds fun item member value final later =>
      each item (.tail _ member) value final (before.trans later)

end Revises

end Structuring.Recovery
