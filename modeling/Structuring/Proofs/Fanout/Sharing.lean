import Structuring.Proofs.Fanout.Switch
import Structuring.Proofs.Home
import Structuring.Proofs.Located

/-! Switches that share a break.

A break is led to the labels of the switch that takes it in. It is on the level of one more switch only
if that one is inside the first, although it is built after it. Then both start at the same block.
-/

namespace Structuring

open Bytecode Recovery FlowGraph

variable {other : SwitchLocation} {locations : List SwitchLocation}

namespace FlowGraph

variable {graph next : FlowGraph} {id : NodeId}

def IsSwitch (graph : FlowGraph) (id : NodeId) : Prop := ∃ parts, (graph.node id).kind = .switch parts

theorem IsSwitch.encloser (isSwitch : graph.IsSwitch id) : graph.Encloser id := by
  obtain ⟨parts, isKind⟩ := isSwitch
  exact .of_kind isKind rfl rfl

theorem IsSwitch.later (isSwitch : graph.IsSwitch id) (grows : Grows graph next) : next.IsSwitch id := by
  have becomes := (grows.nodes id isSwitch.encloser.owner.lt).kind
  obtain ⟨parts, isKind⟩ := isSwitch
  rw [isKind] at becomes
  exact becomes.switch_iff.mpr ⟨_, rfl⟩

/-- A node is inside a switch that is itself inside a switch with the same start. -/
structure Shared (graph : FlowGraph) (id inner outer : NodeId) : Prop where
  isInner : graph.IsSwitch inner
  isOuter : graph.IsSwitch outer
  inside : graph.Below (some inner) id
  nested : graph.Below (some outer) inner
  start : (graph.node inner).start = (graph.node outer).start

end FlowGraph

namespace Recovery

variable {rights : Rights} {source : Source} {session next : Session} {limit : NodeId → Nat}

theorem Edits.shared (edits : Edits rights session next) (settled : ¬rights.owns)
    (whole : ¬rights.cuts) (sound : session.Sound) {id inner outer : NodeId} (bound : id < session.graph.size)
    (proper : (session.graph.node id).kind ≠ .sentinel .empty)
    (shared : session.graph.Shared id inner outer) : next.graph.Shared id inner outer := by
  have innerBound := shared.isInner.encloser.owner.lt
  have outerBound := shared.isOuter.encloser.owner.lt
  constructor
  · exact shared.isInner.later edits.grows
  · exact shared.isOuter.later edits.grows
  · exact edits.below_of_proper settled whole sound bound proper shared.inside
  · exact edits.below_of_proper settled whole sound innerBound shared.isInner.encloser.owner.ne_empty shared.nested
  · rw [(edits.grows.nodes inner innerBound).start, (edits.grows.nodes outer outerBound).start]
    exact shared.start

/-- A node that takes the place of another on its level is at home there. -/
theorem Edits.home_of_level (edits : Edits rights session next) (settled : ¬rights.owns)
    (whole : ¬rights.cuts) {fragment id other : NodeId} (at_home : session.graph.Home fragment id)
    (same : (next.graph.node other).parent = (session.graph.node id).parent) :
    next.graph.Home fragment other := by
  cases at_home with
  | here inside isFragment => exact .here (same.trans inside) (edits.grows.isFragment isFragment)
  | up inside encloser above =>
    exact .up (same.trans inside) (edits.encloser encloser)
      (edits.home settled whole encloser.owner.lt encloser.owner.ne_empty above)

/-! Switches that are to be inserted -/

structure Spread (graph : FlowGraph) (locations : List SwitchLocation) : Prop where
  starts : locations.Pairwise fun first second => second.start ≤ first.start
  jumps : ∀ location ∈ locations, location.jumpBlock ∈ fragmentBlocks graph location.fragment
  separate : ∀ first ∈ locations, ∀ second ∈ locations, first.fragment = second.fragment →
    first.start < second.start → ∃ compare ∈ first.compareBlocks,
      compare ∈ fragmentBlocks graph first.fragment ∧ (graph.node compare).start < second.start

theorem Spread.later (spread : Spread session.graph locations)
    (edits : Edits rights session next) (settled : ¬rights.owns) (sound : session.Sound) :
    Spread next.graph locations := by
  refine ⟨spread.starts, fun location member => ?_, fun first one second two same before => ?_⟩
  · rw [edits.fragmentBlocks_eq settled]
    exact spread.jumps location member
  · obtain ⟨compare, among, listed, start⟩ := spread.separate first one second two same before
    refine ⟨compare, among, ?_, ?_⟩
    · rwa [edits.fragmentBlocks_eq settled]
    · rwa [(edits.grows.nodes compare (lt_of_mem_fragmentBlocks sound.graph listed)).start]

/-! Switches that have been inserted -/

structure StandsFor (graph : FlowGraph) (switch : NodeId) (location : SwitchLocation) : Prop where
  isSwitch : graph.IsSwitch switch
  start : (graph.node switch).start = location.start
  home : graph.Home location.fragment switch
  blocks : ∀ block, (graph.node block).kind.isBlock = true →
    (graph.node block).parent = some switch → location.start ≤ (graph.node block).start

/-- Breaks have edges because switches that have been inserted took them in, more than one only if
they are shared. -/
structure LedOn (graph : FlowGraph) (inserted : List (NodeId × SwitchLocation))
    (limit : NodeId → Nat) : Prop where
  slim : graph.Slim limit
  switches : ∀ entry ∈ inserted, StandsFor graph entry.1 entry.2
  once : ∀ id, 0 < limit id → (graph.node id).kind = .sentinel .breaks ∧
    ∃ entry ∈ inserted, (graph.node id).parent = some entry.1
  twice : ∀ id, 1 < limit id → ∃ inner outer, graph.Shared id inner outer

section

variable {location : SwitchLocation} {breaks : List NodeId} {switch : NodeId}
  {inserted : List (NodeId × SwitchLocation)}
  (edits : Edits Rights.full.settled session next) (housed : session.Housed)
  (done : Inserted location limit session.graph next.graph breaks switch)

include edits done

theorem StandsFor.later {old : NodeId}
    (stands : StandsFor session.graph old other) : StandsFor next.graph old other := by
  have bound := stands.isSwitch.encloser.owner.lt
  refine ⟨stands.isSwitch.later edits.grows, ?_, ?_, fun block isBlock inside => ?_⟩
  · exact (edits.grows.nodes old bound).start.trans stands.start
  · exact edits.home id id bound stands.isSwitch.encloser.owner.ne_empty stands.home
  · rw [edits.isBlock_eq id] at isBlock
    have blockBound := lt_size_of_isBlock isBlock
    rw [(edits.grows.nodes block blockBound).start]
    rcases done.stays block blockBound (Kind.ne_empty_of_isBlock isBlock) with same | ⟨taken, _⟩
    · exact stands.blocks block isBlock (same.symm.trans inside)
    · obtain rfl := Option.some.inj (inside.symm.trans taken)
      exact absurd bound (Nat.not_lt_of_le done.fresh)

include housed

theorem Inserted.standsFor (sound : session.Sound)
    (listed : location.jumpBlock ∈ fragmentBlocks session.graph location.fragment) :
    StandsFor next.graph switch location := by
  refine ⟨done.isSwitch, done.start, ?_, fun block isBlock inside => ?_⟩
  · exact edits.home_of_level id id (housed _ _ listed).2 done.level
  · rw [edits.isBlock_eq id] at isBlock
    have blockBound := lt_size_of_isBlock isBlock
    rw [(edits.grows.nodes block blockBound).start]
    rcases done.stays block blockBound (Kind.ne_empty_of_isBlock isBlock) with same | ⟨_, _, starts⟩
    · have owner := sound.graph.parents block switch (same.symm.trans inside)
      exact absurd owner.lt (Nat.not_lt_of_le done.fresh)
    · exact starts

/-- A switch that takes a break in again is inside the switch that it was in, and starts where that
one does. -/
theorem Inserted.shared {old : NodeId} (spread : Spread session.graph locations) (among : location ∈ locations)
    (earlier : other ∈ locations) (order : location.start ≤ other.start)
    (stands : StandsFor session.graph old other) {id : NodeId} (taken : id ∈ breaks)
    (isBreak : (session.graph.node id).kind = .sentinel .breaks)
    (inside : (session.graph.node id).parent = some old) : next.graph.Shared id switch old := by
  have bound : id < session.graph.size := lt_size_of_parent inside
  have moved := done.inside id taken
  have level : (session.graph.node location.jumpBlock).parent = some old := by
    rcases done.stays id bound (by simp [isBreak]) with same | ⟨_, level, _⟩
    · obtain rfl := Option.some.inj ((same.symm.trans moved).symm.trans inside)
      exact absurd stands.isSwitch.encloser.owner.lt (Nat.not_lt_of_le done.fresh)
    · exact level.symm.trans inside
  have at_home := (housed _ _ (spread.jumps location among)).2
  have together : location.fragment = other.fragment :=
    (at_home.of_inside level stands.isSwitch.encloser).unique stands.home rfl
  have start : location.start = other.start := by
    -- Otherwise a comparison would be inside the other switch and start before it.
    rcases Nat.eq_or_lt_of_le order with same | before
    · exact same
    · obtain ⟨compare, compares, listed, start⟩ := spread.separate location among other earlier together before
      have within := stands.blocks compare (housed _ _ listed).1 ((done.compares compare compares).trans level)
      exact absurd start (Nat.not_lt_of_le within)
  constructor
  · exact done.isSwitch
  · exact stands.isSwitch.later edits.grows
  · exact .here moved
  · exact .here (done.level.trans level)
  · rw [done.start, start, (edits.grows.nodes old stands.isSwitch.encloser.owner.lt).start, stands.start]

theorem LedOn.insert (sound : session.Sound) (linked : LedOn session.graph inserted limit)
    (spread : Spread session.graph locations) (among : location ∈ locations)
    (earlier : ∀ entry ∈ inserted, entry.2 ∈ locations ∧ location.start ≤ entry.2.start) :
    LedOn next.graph (inserted ++ [(switch, location)]) fun id => limit id + breaks.count id := by
  have stands := done.standsFor edits housed sound (spread.jumps location among)
  constructor
  · exact done.slim
  · intro entry member
    rcases List.mem_append.mp member with old | new
    · exact (linked.switches entry old).later edits done
    · exact List.mem_singleton.mp new ▸ stands
  · intro id some
    by_cases taken : id ∈ breaks
    · exact ⟨done.isBreak id taken, (switch, location), by simp, done.inside id taken⟩
    · rw [List.count_eq_zero_of_not_mem taken] at some
      obtain ⟨isBreak, entry, member, inside⟩ := linked.once id some
      have bound : id < session.graph.size := lt_size_of_parent inside
      refine ⟨edits.sentinel isBreak bound, entry, List.mem_append_left _ member, ?_⟩
      rcases done.stays id bound (by simp [isBreak]) with same | ⟨moved, _⟩
      · exact same.trans inside
      · exact absurd (done.taken id bound isBreak moved) taken
  · intro id several
    by_cases taken : id ∈ breaks
    · rw [List.count_eq_one_of_mem done.distinct taken] at several
      obtain ⟨isBreak, entry, member, inside⟩ := linked.once id (by omega)
      obtain ⟨listed, order⟩ := earlier entry member
      exact ⟨switch, entry.1, done.shared edits housed spread among listed order
        (linked.switches entry member) taken isBreak inside⟩
    · rw [List.count_eq_zero_of_not_mem taken] at several
      obtain ⟨inner, outer, shared⟩ := linked.twice id several
      obtain ⟨isBreak, _, _, inside⟩ := linked.once id (Nat.lt_of_succ_lt several)
      exact ⟨inner, outer, edits.shared False.elim False.elim sound (lt_size_of_parent inside)
        (by simp [isBreak]) shared⟩

end

theorem ledOn_insertSwitches (sound : session.Sound) (housed : session.Housed)
    (spread : Spread session.graph session.claims.switches) (slim : session.graph.Slim fun _ => 0) :
    Returns (insertSwitches source) session fun _ next =>
      ∃ inserted limit, LedOn next.graph inserted limit := by
  refine .getClaims_bind ?_
  extract_lets locations
  have clears : Revises Rights.full.settled (modifyClaims ({ · with switches := [] })) session _ :=
    .clearSwitches trivial
  refine .bind (.of_revises clears sound) ?_
  rintro _ start ⟨startSound, toStart, same⟩
  refine .bind (.forM_done (fun done next => next.Sound ∧ Edits Rights.full.settled session next ∧
    ∃ inserted limit, inserted.map Prod.snd = done ∧ LedOn next.graph inserted limit) ?_ ?_)
    fun _ _ kept => ?_
  · refine ⟨startSound, toStart, [], fun _ => 0, rfl, ?_, ?_, ?_, ?_⟩
    · exact same ▸ slim
    · exact List.forall_mem_nil _
    · exact fun _ some => absurd some (Nat.lt_irrefl 0)
    · exact fun _ several => absurd several (Nat.not_lt_zero 1)
  · rintro done location rest isAll next ⟨nextSound, toNext, inserted, limit, isDone, linked⟩
    have member : location ∈ locations := isAll ▸ List.mem_append_right _ (.head _)
    have bounds := fun id among => toNext.lt (sound.claims id (Claims.mem_nodes member among))
    have inserts : Revises Rights.full.settled (insertSwitch source location) next _ :=
      revises_insertSwitch trivial bounds
    refine .imp (.and (.of_revises inserts nextSound) (slim_insertSwitch nextSound bounds linked.slim)) ?_
    rintro _ final ⟨⟨finalSound, toFinal, _⟩, breaks, switch, inserted'⟩
    refine ⟨finalSound, toNext.trans toFinal, _, _, ?_, linked.insert toFinal
      (housed.later toNext id id) inserted' nextSound (spread.later toNext id sound) member ?_⟩
    · simp [isDone]
    · intro entry among
      have listed : entry.2 ∈ done := isDone ▸ List.mem_map_of_mem among
      have all : entry.2 ∈ locations := isAll ▸ List.mem_append_left _ listed
      refine ⟨all, ?_⟩
      have starts : locations.Pairwise fun first second => second.start ≤ first.start := spread.starts
      rw [isAll] at starts
      exact (List.pairwise_append.mp starts).2.2 entry.2 listed location (.head _)
  · obtain ⟨_, _, inserted, limit, _, linked⟩ := kept
    exact .pure ⟨inserted, limit, linked⟩

end Recovery

end Structuring
