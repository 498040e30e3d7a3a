import Structuring.Proofs.BranchNest.Building
import Structuring.Proofs.BranchNest.Program

/-! Conditionals built from the highest address down.

A part of the row is worked on as if it stood alone: what is left and right of it stays, and each
conditional in it ends up as one node. Parts are put together in two ways, one behind the other and
as the arms of a conditional. What is shown of all statements follows from these.
-/

namespace Structuring.BranchNest

open Bytecode Recovery FlowGraph LoopNest Forward

variable {root last id tile : NodeId} {front back : List NodeId} {finish : Nat} {source : Source}
  {entry : PlacedIf × Option PlacedIf}

/-! Parts -/

structure Part where
  start : Nat
  stop : Nat
  blocks : List (NodeId × PlannedBlock)
  /-- Blocks that no conditional of the part takes in. -/
  keep : List (NodeId × PlannedBlock)
  /-- Places inside that branches from outside may go to. -/
  doors : List Nat
  /-- The conditionals, each with the innermost one around it that is in the part. -/
  nest : List (PlacedIf × Option PlacedIf)

namespace Part

def ids (part : Part) : List NodeId := part.blocks.map (·.1)

def heads (part : Part) : List NodeId :=
  (part.blocks.filter fun entry => entry.2.jump.map (·.1) == some .bf).map (·.1)

def append (first second : Part) : Part where
  start := first.start
  stop := second.stop
  blocks := first.blocks ++ second.blocks
  keep := first.keep ++ second.keep
  doors := first.doors ++ second.start :: second.doors
  nest := first.nest ++ second.nest

def wrap (arms : Part) (head : NodeId × PlannedBlock) (conditional : PlacedIf) : Part where
  start := head.2.start
  stop := arms.stop
  blocks := head :: arms.blocks
  keep := []
  doors := []
  nest := (conditional, none) :: arms.nest.map fun entry => (entry.1, entry.2.or (some conditional))

def stay (start stop : Nat) (blocks : List (NodeId × PlannedBlock)) : Part := ⟨start, stop, blocks, blocks, [], []⟩

end Part

structure Ready (part : Part) (session : Session) (root last : NodeId) (front back : List NodeId) (finish : Nat) : Prop
    extends Parted session.graph root last front part.ids back part.start part.stop finish where
  outside : ∀ tile ∈ front ++ back, ∀ address ∈ startsAfter session.graph tile,
    address ≤ part.start ∨ part.stop ≤ address ∨ address ∈ part.doors
  stands : ∀ entry ∈ part.blocks, Stands session.graph entry.1 entry.2
  tidied : session.Tidied True
  rooted : root < session.graph.size
  rootless : (session.graph.node root).parent ≠ some root
  more : back ≠ []

def StandsFor (graph : FlowGraph) (blocks : List (NodeId × PlannedBlock)) (conditional : PlacedIf) (id : NodeId) :
    Prop :=
  (graph.node id).stop = conditional.join ∧ ∃ parts block target, (graph.node id).kind = .conditional parts ∧
    parts.otherwise.isSome = conditional.hasElse ∧ (parts.condition, block) ∈ blocks ∧
    block.jump = some (.bf, target) ∧ block.start + extent block.body = conditional.turn

def Owned (graph : FlowGraph) (tiles : List NodeId) (built : List (PlacedIf × NodeId)) (id : NodeId) :
    Option PlacedIf → Prop
  | none => id ∈ tiles
  | some around => ∃ owner, (around, owner) ∈ built ∧ (graph.node id).parent = some owner

/-- The row after the conditionals of a part have been built. -/
structure Collapsed (part : Part) (root last : NodeId) (front back : List NodeId) (finish : Nat)
    (session next : Session) (tiles : List NodeId) (built : List (PlacedIf × NodeId)) : Prop
    extends Parted next.graph root last front tiles back part.start part.stop finish where
  reworks : Reworks session.graph next.graph root part.ids
  tidied : next.Tidied True
  cases : ∀ tile ∈ tiles, session.graph.size ≤ tile ∧ RunsOn next.graph tile ∨
    ∃ entry ∈ part.keep, entry.1 = tile
  kept : ∀ entry ∈ part.keep, entry.1 ∈ tiles ∧ Stands next.graph entry.1 entry.2
  bared : ∀ entry ∈ part.blocks, entry ∉ part.keep →
    (next.graph.node entry.1).kind = .block ⟨entry.1, placeFrom entry.2.start entry.2.body⟩
  listed : built.map (·.1) = (part.nest.map (·.1)).reverse
  made : ∀ entry ∈ built, session.graph.size ≤ entry.2
  nested : ∀ entry ∈ part.nest, ∃ id, (entry.1, id) ∈ built ∧
    StandsFor next.graph part.blocks entry.1 id ∧ Owned next.graph tiles built id entry.2
  frame : next.context = { session.context with
    graph := next.graph, conditionals := session.conditionals ++ built.map (·.2) }
  claims : next.claims = session.claims

structure Collapses (source : Source) (part : Part) : Prop where
  chained : Chained part.start (part.blocks.map (·.2.plan)) part.stop
  ahead : ∀ entry ∈ part.blocks, ∀ address ∈ entry.2.leads, entry.2.start < address
  within : ∀ door ∈ part.doors, part.start ≤ door ∧ door ≤ part.stop
  known : ∀ entry ∈ part.keep, entry ∈ part.blocks
  reaches : ∀ {session : Session} {root last : NodeId} {front back : List NodeId} {finish : Nat},
    Ready part session root last front back finish →
      Succeeds (part.heads.reverse.forM (buildConditional source)) session fun _ next =>
        ∃ tiles built, Collapsed part root last front back finish session next tiles built

/-! What is known of the row -/

section

variable {graph next : FlowGraph} {blocks : List (NodeId × PlannedBlock)} {start stop : Nat}

theorem eq_of_id (chained : Chained start (blocks.map (·.2.plan)) stop)
    (stands : ∀ entry ∈ blocks, Stands graph entry.1 entry.2) {entry other : NodeId × PlannedBlock}
    (member : entry ∈ blocks) (among : other ∈ blocks) (same : entry.1 = other.1) : entry = other := by
  have starts := (stands entry member).start
  rw [same, (stands other among).start] at starts
  clear stands same
  induction blocks generalizing start with
  | nil => cases member
  | cons first rest ih =>
    obtain ⟨_, grows, chained⟩ := chained
    have later {late : NodeId × PlannedBlock} (behind : late ∈ rest) : first.2.start < late.2.start :=
      Nat.lt_of_lt_of_le grows (bounds_of_chained chained (List.mem_map_of_mem behind)).1
    rcases List.mem_cons.mp member with rfl | behind <;> rcases List.mem_cons.mp among with rfl | after
    · rfl
    · exact absurd starts (Nat.ne_of_gt (later after))
    · exact absurd starts (Nat.ne_of_lt (later behind))
    · exact ih chained behind after

namespace Ready

variable {part : Part} {session : Session} (ready : Ready part session root last front back finish)
include ready

theorem ne_root (level : (session.graph.node tile).parent = some root) : tile ≠ root := by
  rintro rfl
  exact ready.rootless level

theorem level_of_mem {entry : NodeId × PlannedBlock} (member : entry ∈ part.blocks) :
    (session.graph.node entry.1).parent = some root := ready.level (mem_row_of_inner (List.mem_map_of_mem member))

theorem rootless_of_reworks (reworks : Reworks session.graph next root part.ids) :
    (next.node root).parent ≠ some root := by
  rw [reworks.parents root ready.rooted]
  · exact ready.rootless
  · exact fun inner => ready.rootless (ready.level (mem_row_of_inner inner))

end Ready

end

/-! Parts one behind the other -/

namespace Collapses

theorem close {part : Part} (collapses : Collapses source part) {doors : List Nat}
    (fewer : ∀ door ∈ doors, door ∈ part.doors) : Collapses source { part with doors } where
  chained := collapses.chained
  ahead := collapses.ahead
  within door member := collapses.within door (fewer door member)
  known := collapses.known
  reaches ready := by
    refine .imp (collapses.reaches ⟨ready.toParted, fun tile member address among => ?_, ready.stands, ready.tidied,
      ready.rooted, ready.rootless, ready.more⟩) fun _ next ⟨tiles, built, collapsed⟩ =>
        ⟨tiles, built, collapsed.toParted, collapsed.reworks, collapsed.tidied, collapsed.cases, collapsed.kept,
          collapsed.bared, collapsed.listed, collapsed.made, collapsed.nested, collapsed.frame, collapsed.claims⟩
    exact (ready.outside tile member address among).imp_right (Or.imp_right (fewer address))

theorem stay {start stop : Nat} {blocks : List (NodeId × PlannedBlock)}
    (chained : Chained start (blocks.map (·.2.plan)) stop)
    (ahead : ∀ entry ∈ blocks, ∀ address ∈ entry.2.leads, entry.2.start < address)
    (plain : ∀ entry ∈ blocks, ∀ target, entry.2.jump ≠ some (.bf, target)) :
    Collapses source (.stay start stop blocks) where
  chained := chained
  ahead := ahead
  within _ member := absurd member List.not_mem_nil
  known _ := id
  reaches {session root last front back finish} ready := by
    have none : (Part.stay start stop blocks).heads = [] := by
      refine List.map_eq_nil_iff.mpr (List.filter_eq_nil_iff.mpr fun entry member isHead => ?_)
      obtain ⟨jump, isJump, isBf⟩ := Option.map_eq_some_iff.mp (eq_of_beq isHead)
      exact plain entry member jump.2 (by rw [isJump, ← isBf])
    rw [none]
    refine .pure ⟨_, [], ready.toParted, .refl _ _ _, ready.tidied, fun tile member => ?_, fun entry member => ?_,
      fun entry member outside => absurd member outside, rfl, List.forall_mem_nil _,
      List.forall_mem_nil _, ?_, rfl⟩
    · obtain ⟨entry, among, same⟩ := List.mem_map.mp member
      exact .inr ⟨entry, among, same⟩
    · exact ⟨List.mem_map_of_mem member, ready.stands entry member⟩
    · rw [List.map_nil, List.append_nil]

end Collapses

section

variable {first second : Part} {session middle next : Session} {tiles early : List NodeId}
  {built before : List (PlacedIf × NodeId)}

theorem Collapsed.lt_of_lead {part : Part} (collapsed : Collapsed part root last front back finish session next tiles built)
    (collapses : Collapses source part) (member : tile ∈ tiles) {address : Nat}
    (among : address ∈ startsAfter next.graph tile) : (next.graph.node tile).start < address := by
  rcases collapsed.cases tile member with ⟨_, runsOn⟩ | ⟨entry, isKept, rfl⟩
  · rw [runsOn.leads] at among
    rw [List.mem_singleton.mp among]
    exact (collapsed.covered.bounds member).2.1
  · have stands := (collapsed.kept entry isKept).2
    rw [stands.leads] at among
    rw [stands.start]
    exact collapses.ahead entry (collapses.known entry isKept) address among

variable (one : Collapses source first) (two : Collapses source second) (meets : first.stop = second.start)
  (leads : ∀ entry ∈ first.blocks, ∀ address ∈ entry.2.leads,
    address ≤ second.start ∨ second.stop ≤ address ∨ address ∈ second.doors)

include one two meets leads in
theorem ready_second (ready : Ready (first.append second) session root last front back finish) :
    Ready second session root last (front ++ first.ids) back finish := by
  have standsFirst (entry : NodeId × PlannedBlock) (member : entry ∈ first.blocks) :
      Stands session.graph entry.1 entry.2 :=
    ready.stands entry (List.mem_append_left _ member)
  have standsSecond (entry : NodeId × PlannedBlock) (member : entry ∈ second.blocks) :
      Stands session.graph entry.1 entry.2 :=
    ready.stands entry (List.mem_append_right _ member)
  have below := le_of_chained one.chained
  have tiled := tiled_of_chained one.chained standsFirst
  rw [meets] at tiled
  refine ⟨⟨?_, tiled_append.mpr ⟨_, ready.before, tiled⟩, tiled_of_chained two.chained standsSecond, ready.behind⟩,
    fun tile member address among => ?_, standsSecond, ready.tidied, ready.rooted, ready.rootless, ready.more⟩
  · have row := ready.row
    simp only [Part.ids, Part.append, List.map_append, List.append_assoc] at row ⊢
    exact row
  · have cases : tile ∈ front ++ back ∨ tile ∈ first.ids := by
      simp only [List.mem_append] at member ⊢
      tauto
    rcases cases with outer | inner
    · rcases ready.outside tile outer address among with low | high | door
      · exact .inl (Nat.le_trans low (meets ▸ below))
      · exact .inr (.inl high)
      · rcases List.mem_append.mp door with door | door
        · exact .inl (meets ▸ (one.within address door).2)
        · rcases List.mem_cons.mp door with rfl | door
          · exact .inl (Nat.le_refl _)
          · exact .inr (.inr door)
    · obtain ⟨entry, isEntry, rfl⟩ := List.mem_map.mp inner
      rw [(standsFirst entry isEntry).leads] at among
      exact leads entry isEntry address among

include one two meets in
theorem ready_first (ready : Ready (first.append second) session root last front back finish)
    (readySecond : Ready second session root last (front ++ first.ids) back finish)
    (collapsed : Collapsed second root last (front ++ first.ids) back finish session middle tiles built) :
    Ready first middle root last front (tiles ++ back) finish := by
  have reworks := collapsed.reworks
  have outer {tile : NodeId} (member : tile ∈ front ∨ tile ∈ first.ids ∨ tile ∈ back) :
      tile ∈ front ++ first.ids ++ back := by
    simp only [List.mem_append]
    tauto
  have keeps {nodes : List NodeId} {low high : Nat} (tiled : Tiled session.graph low nodes high)
      (among : ∀ tile ∈ nodes, tile ∈ front ∨ tile ∈ first.ids ∨ tile ∈ back) :
      Tiled middle.graph low nodes high :=
    reworks.tiled tiled fun tile member => readySecond.bound_outer (outer (among tile member))
  have covered := tiled_of_chained one.chained fun entry member => ready.stands entry (List.mem_append_left _ member)
  have behind := keeps ready.behind fun _ member => .inr (.inr member)
  have above := le_of_chained two.chained
  refine ⟨⟨?_, keeps ready.before fun _ member => .inl member, keeps covered fun _ member => .inr (.inl member),
    tiled_append.mpr ⟨_, meets.symm ▸ collapsed.covered, behind⟩⟩, fun tile member address among => ?_,
    fun entry member => ?_, collapsed.tidied, Nat.lt_of_lt_of_le ready.rooted reworks.size,
    readySecond.rootless_of_reworks reworks, ?_⟩
  · have row := collapsed.row
    simp only [List.append_assoc] at row ⊢
    exact row
  · have cases : (tile ∈ front ∨ tile ∈ back) ∨ tile ∈ tiles := by
      simp only [List.mem_append] at member
      tauto
    rcases cases with far | near
    · have isOuter := outer (far.imp_right .inr)
      have level := readySecond.level (mem_row_of_outer isOuter)
      rw [reworks.leads tile level (readySecond.not_inner isOuter)] at among
      rcases ready.outside tile (List.mem_append.mpr far) address among with low | high | door
      · exact .inl low
      · exact .inr (.inl (Nat.le_trans (meets ▸ above) high))
      · rcases List.mem_append.mp door with door | door
        · exact .inr (.inr door)
        · rcases List.mem_cons.mp door with rfl | door
          · exact .inr (.inl (Nat.le_of_eq meets))
          · exact .inr (.inl (meets ▸ (two.within address door).1))
    · have start := (collapsed.covered.bounds near).1
      have ahead := collapsed.lt_of_lead two near among
      omega
  · have isOuter := outer (.inr (.inl (List.mem_map_of_mem member)))
    have level := readySecond.level (mem_row_of_outer isOuter)
    exact reworks.stands level (readySecond.not_inner isOuter) (ready.ne_root level)
      (ready.stands entry (List.mem_append_left _ member))
  · exact fun none => ready.more (List.append_eq_nil_iff.mp none).2

/-- What has been built for the second of two parts stays when the first is worked on. -/
theorem nested_of_second {graph : FlowGraph} (reworks : Reworks graph next.graph root first.ids)
    (isNew : id ∉ first.ids) (notRoot : id ≠ root)
    (isFor : StandsFor graph second.blocks entry.1 id) (owned : Owned graph tiles built id entry.2) :
    StandsFor next.graph (first.blocks ++ second.blocks) entry.1 id ∧
      Owned next.graph (early ++ tiles) (built ++ before) id entry.2 := by
  obtain ⟨stop, parts, block, target, isKind, hasElse, member, jumps, turn⟩ := isFor
  have bound : id < graph.size := by
    refine Nat.lt_of_not_le fun outside => ?_
    rw [node_of_size_le outside] at isKind
    exact absurd isKind (by simp [Node.absent])
  refine ⟨⟨(reworks.stops id bound).trans stop, parts, block, target, ?_, hasElse,
    List.mem_append_right _ member, jumps, turn⟩, ?_⟩
  · rw [reworks.kinds id bound notRoot (.inl isNew), isKind]
  · cases around : entry.2 with
    | none =>
      rw [around] at owned
      exact List.mem_append_right _ owned
    | some outer =>
      rw [around] at owned
      obtain ⟨owner, among, parent⟩ := owned
      exact ⟨owner, List.mem_append_left _ among, (reworks.parents id bound isNew).trans parent⟩

theorem nested_of_first {graph : FlowGraph} (isFor : StandsFor graph first.blocks entry.1 id)
    (owned : Owned graph early before id entry.2) :
    StandsFor graph (first.blocks ++ second.blocks) entry.1 id ∧
      Owned graph (early ++ tiles) (built ++ before) id entry.2 := by
  obtain ⟨stop, parts, block, target, isKind, hasElse, member, jumps, turn⟩ := isFor
  refine ⟨⟨stop, parts, block, target, isKind, hasElse, List.mem_append_left _ member, jumps, turn⟩, ?_⟩
  cases around : entry.2 with
  | none =>
    rw [around] at owned
    exact List.mem_append_left _ owned
  | some outer =>
    rw [around] at owned
    obtain ⟨owner, among, parent⟩ := owned
    exact ⟨owner, List.mem_append_right _ among, parent⟩

include meets in
theorem collapsed_append (readySecond : Ready second session root last (front ++ first.ids) back finish)
    (readyFirst : Ready first middle root last front (tiles ++ back) finish)
    (late : Collapsed second root last (front ++ first.ids) back finish session middle tiles built)
    (done : Collapsed first root last front (tiles ++ back) finish middle next early before) :
    Collapsed (first.append second) root last front back finish session next (early ++ tiles) (built ++ before) := by
  have grows := late.reworks.size
  have notFirst {tile : NodeId} (member : tile ∈ tiles) : tile ∉ first.ids :=
    readyFirst.not_inner (List.mem_append_right _ (List.mem_append_left _ member))
  have level {tile : NodeId} (member : tile ∈ tiles) : (middle.graph.node tile).parent = some root :=
    late.level (mem_row_of_inner member)
  have firstBound (id : NodeId) (member : id ∈ first.ids) : id < session.graph.size :=
    readySecond.bound_outer (List.mem_append_left _ (List.mem_append_right _ member))
  have ids : (first.append second).ids = first.ids ++ second.ids := List.map_append
  constructor
  case toParted =>
    refine ⟨?_, done.before, tiled_append.mpr ⟨second.start, meets ▸ done.covered, ?_⟩, ?_⟩
    · have row := done.row
      simp only [List.append_assoc] at row ⊢
      exact row
    · exact done.reworks.tiled late.covered fun tile => late.bound_inner
    · exact done.reworks.tiled late.behind fun tile member => late.bound_outer (List.mem_append_right _ member)
  case reworks =>
    rw [ids]
    exact late.reworks.trans done.reworks readySecond.rooted (fun _ => List.mem_append_right _)
      fun _ member => .inl (List.mem_append_left _ member)
  case tidied => exact done.tidied
  case cases =>
    intro tile member
    rcases List.mem_append.mp member with isEarly | isLate
    · rcases done.cases tile isEarly with ⟨isNew, runsOn⟩ | ⟨entry, isKept, same⟩
      · exact .inl ⟨Nat.le_trans grows isNew, runsOn⟩
      · exact .inr ⟨entry, List.mem_append_left _ isKept, same⟩
    · rcases late.cases tile isLate with ⟨isNew, runsOn⟩ | ⟨entry, isKept, same⟩
      · exact .inl ⟨isNew, done.reworks.runsOn (level isLate) (notFirst isLate) (readyFirst.ne_root (level isLate)) runsOn⟩
      · exact .inr ⟨entry, List.mem_append_right _ isKept, same⟩
  case kept =>
    intro entry member
    rcases List.mem_append.mp member with isEarly | isLate
    · exact ⟨List.mem_append_left _ (done.kept entry isEarly).1, (done.kept entry isEarly).2⟩
    · obtain ⟨isTile, stands⟩ := late.kept entry isLate
      exact ⟨List.mem_append_right _ isTile,
        done.reworks.stands (level isTile) (notFirst isTile) (readyFirst.ne_root (level isTile)) stands⟩
  case bared =>
    intro entry member outside
    rcases List.mem_append.mp member with isEarly | isLate
    · exact done.bared entry isEarly fun isKept => outside (List.mem_append_left _ isKept)
    · have inner : entry.1 ∈ second.ids := List.mem_map_of_mem isLate
      have apart : entry.1 ∉ first.ids := fun isFirst =>
        readySecond.not_inner (List.mem_append_left _ (List.mem_append_right _ isFirst)) inner
      rw [done.reworks.kinds entry.1 (Nat.lt_of_lt_of_le (readySecond.bound_inner inner) grows)
        (readySecond.ne_root (readySecond.level_of_mem isLate)) (.inl apart)]
      exact late.bared entry isLate fun isKept => outside (List.mem_append_right _ isKept)
  case listed =>
    show _ = ((first.nest ++ second.nest).map (·.1)).reverse
    rw [List.map_append, List.map_append, List.reverse_append, late.listed, done.listed]
  case made =>
    intro entry member
    rcases List.mem_append.mp member with isLate | isEarly
    · exact late.made entry isLate
    · exact Nat.le_trans grows (done.made entry isEarly)
  case nested =>
    intro entry member
    rcases List.mem_append.mp member with isEarly | isLate
    · obtain ⟨id, isBuilt, isFor, owned⟩ := done.nested entry isEarly
      exact ⟨id, List.mem_append_right _ isBuilt, nested_of_first isFor owned⟩
    · obtain ⟨id, isBuilt, isFor, owned⟩ := late.nested entry isLate
      have isNew := late.made _ isBuilt
      exact ⟨id, List.mem_append_left _ isBuilt, nested_of_second done.reworks
        (fun isFirst => Nat.not_lt_of_le isNew (firstBound id isFirst))
        (Nat.ne_of_gt (Nat.lt_of_lt_of_le readySecond.rooted isNew)) isFor owned⟩
  case frame =>
    rw [done.frame, late.frame, List.map_append, List.append_assoc]
  case claims => rw [done.claims, late.claims]

include leads in
theorem Collapses.append (one : Collapses source first) (two : Collapses source second)
    (meets : first.stop = second.start) : Collapses source (first.append second) where
  chained := by
    show Chained first.start ((first.blocks ++ second.blocks).map (·.2.plan)) second.stop
    rw [List.map_append]
    exact chained_append (meets ▸ one.chained) two.chained
  ahead entry member := (List.mem_append.mp member).elim (one.ahead entry) (two.ahead entry)
  within door member := by
    have below := le_of_chained one.chained
    have above := le_of_chained two.chained
    show first.start ≤ door ∧ door ≤ second.stop
    rcases List.mem_append.mp member with isFirst | isSecond
    · have := one.within door isFirst
      omega
    · rcases List.mem_cons.mp isSecond with rfl | isSecond
      · omega
      · have := two.within door isSecond
        omega
  known entry member := by
    rcases List.mem_append.mp member with isFirst | isSecond
    · exact List.mem_append_left _ (one.known entry isFirst)
    · exact List.mem_append_right _ (two.known entry isSecond)
  reaches {session root last front back finish} ready := by
    have readySecond := ready_second one two meets leads ready
    have heads : (first.append second).heads.reverse = second.heads.reverse ++ first.heads.reverse := by
      simp [Part.heads, Part.append]
    rw [heads]
    refine .forM_append (.imp (two.reaches readySecond) fun _ middle ⟨tiles, built, late⟩ => ?_)
    have readyFirst := ready_first one two meets ready readySecond late
    refine .imp (one.reaches readyFirst) ?_
    rintro _ next ⟨early, before, done⟩
    exact ⟨_, _, collapsed_append meets readySecond readyFirst late done⟩

end

/-! A conditional around its arms -/

structure IsConditional (arms : Part) (head : NodeId × PlannedBlock) (address : Nat)
    (skip : Option (NodeId × PlannedBlock)) : Prop where
  jumps : head.2.jump = some (.bf, address)
  follows : head.2.stop = arms.start
  lands : address = arms.stop ∨ address ∈ arms.doors
  plain : ∀ entry ∈ arms.keep, entry.2.IsPlain ∨ skip = some entry
  joins : skip = none → address = arms.stop
  skips : ∀ entry, skip = some entry → entry ∈ arms.keep ∧ entry.2.jump = some (.b, arms.stop) ∧ entry.2.stop = address

section

variable {arms : Part} {head : NodeId × PlannedBlock} {address : Nat} {skip : Option (NodeId × PlannedBlock)}
  {conditional : PlacedIf} (collapses : Collapses source arms) (shape : IsConditional arms head address skip)
include collapses shape

theorem IsConditional.lt_stop : head.2.start < head.2.stop ∧ arms.start ≤ address ∧ address ≤ arms.stop := by
  have above := le_of_chained collapses.chained
  refine ⟨?_, ?_⟩
  · rw [PlannedBlock.stop_of_jump shape.jumps]
    omega
  · rcases shape.lands with rfl | door
    · exact ⟨above, Nat.le_refl _⟩
    · exact collapses.within address door

theorem IsConditional.chained : Chained head.2.start ((head :: arms.blocks).map (·.2.plan)) arms.stop :=
  ⟨rfl, (shape.lt_stop collapses).1, show Chained head.2.stop _ _ from shape.follows ▸ collapses.chained⟩

theorem ready_arms {session : Session}
    (ready : Ready (arms.wrap head conditional) session root last front back finish) :
    Ready arms session root last (front ++ [head.1]) back finish := by
  have stands (entry : NodeId × PlannedBlock) (member : entry ∈ arms.blocks) :
      Stands session.graph entry.1 entry.2 :=
    ready.stands entry (.tail _ member)
  have isHead := ready.stands head (.head _)
  have bounds := shape.lt_stop collapses
  have covered : Tiled session.graph head.2.start [head.1] arms.start := by
    refine ⟨isHead.start, ?_, ?_⟩
    · rw [isHead.stop]
      exact bounds.1
    · rw [isHead.stop]
      exact shape.follows
  refine ⟨⟨?_, tiled_append.mpr ⟨_, ready.before, covered⟩, tiled_of_chained collapses.chained stands, ready.behind⟩,
    fun tile member address among => ?_, stands, ready.tidied, ready.rooted, ready.rootless, ready.more⟩
  · have row := ready.row
    simp only [Part.ids, Part.wrap, List.map_cons, List.append_assoc, List.cons_append, List.nil_append] at row ⊢
    exact row
  · have cases : tile ∈ front ++ back ∨ tile = head.1 := by
      simp only [List.mem_append, List.mem_singleton] at member ⊢
      tauto
    rcases cases with outer | rfl
    · rcases ready.outside tile outer address among with low | high | door
      · have low : address ≤ head.2.start := low
        have := shape.follows
        omega
      · exact .inr (.inl high)
      · cases door
    · rw [isHead.leads, PlannedBlock.leads, shape.jumps] at among
      simp only [reduceCtorEq, if_false, List.mem_cons, List.not_mem_nil, or_false] at among
      rcases among with rfl | rfl
      · exact .inl (Nat.le_of_eq shape.follows)
      · rcases shape.lands with isStop | door
        · exact .inr (.inl (Nat.le_of_eq isStop.symm))
        · exact .inr (.inr door)

variable {session middle next : Session} {tiles : List NodeId} {built : List (PlacedIf × NodeId)}
  (ready : Ready (arms.wrap head conditional) session root last front back finish)
  (collapsed : Collapsed arms root last (front ++ [head.1]) back finish session middle tiles built)
include ready collapsed

omit collapsed in
theorem head_not_arm : head.1 ∉ arms.ids :=
  (ready_arms collapses shape ready).not_inner (List.mem_append_left _ (List.mem_append_right _ (.head _)))

theorem stands_head : Stands middle.graph head.1 head.2 := by
  have level := ready.level_of_mem (.head _)
  exact collapsed.reworks.stands level (head_not_arm collapses shape ready) (ready.ne_root level)
    (ready.stands head (.head _))

theorem span_head : Span middle.graph root last front (head.1 :: tiles) back head.2.start arms.stop finish := by
  have readyArms := ready_arms collapses shape ready
  have isHead := stands_head collapses shape ready collapsed
  have outer {tile : NodeId} (member : tile ∈ front ++ back) : tile ∈ front ++ [head.1] ++ back := mem_row_of_outer member
  refine ⟨⟨?_, ?_, ⟨isHead.start, ?_, ?_⟩, collapsed.behind⟩, fun tile member address among => ?_⟩
  · have row := collapsed.row
    simp only [List.append_assoc, List.cons_append, List.nil_append] at row ⊢
    exact row
  · exact collapsed.reworks.tiled ready.before fun tile member =>
      readyArms.bound_outer (outer (List.mem_append_left _ member))
  · rw [isHead.stop]
    exact (shape.lt_stop collapses).1
  · rw [isHead.stop, shape.follows]
    exact collapsed.covered
  · rw [collapsed.reworks.leads tile (readyArms.level (mem_row_of_outer (outer member)))
      (readyArms.not_inner (outer member))] at among
    rcases ready.outside tile member address among with low | high | door
    · exact .inl low
    · exact .inr high
    · cases door

omit ready collapses in
theorem tile_cases (member : tile ∈ tiles) :
    RunsOn middle.graph tile ∨ ∃ entry, skip = some entry ∧ entry.1 = tile := by
  rcases collapsed.cases tile member with ⟨_, runsOn⟩ | ⟨entry, isKept, rfl⟩
  · exact .inl runsOn
  · rcases shape.plain entry isKept with plain | isSkip
    · exact .inl ((collapsed.kept entry isKept).2.runsOn plain)
    · exact .inr ⟨entry, isSkip, rfl⟩

/-- What leads on from the condition and from its arms stays between them and the join. -/
theorem leads_arms : ∀ tile ∈ head.1 :: tiles, ∀ address ∈ startsAfter middle.graph tile,
    head.2.start < address ∧ address ≤ arms.stop := by
  have isHead := stands_head collapses shape ready collapsed
  have bounds := shape.lt_stop collapses
  have follows := shape.follows
  intro tile member place among
  rcases List.mem_cons.mp member with rfl | inner
  · rw [isHead.leads, PlannedBlock.leads, shape.jumps] at among
    simp only [reduceCtorEq, if_false, List.mem_cons, List.not_mem_nil, or_false] at among
    rcases among with rfl | rfl <;> omega
  · have within := collapsed.covered.bounds inner
    rcases tile_cases shape collapsed inner with runsOn | ⟨entry, isSkip, rfl⟩
    · rw [runsOn.leads] at among
      rw [List.mem_singleton.mp among]
      omega
    · obtain ⟨isKept, jumps, _⟩ := shape.skips entry isSkip
      rw [(collapsed.kept entry isKept).2.leads, PlannedBlock.leads, jumps] at among
      rw [List.mem_singleton.mp among]
      omega

omit ready in
theorem armEnds : ArmEnds middle.graph tiles address arms.stop (skip.map (·.1)) := by
  cases isSkip : skip with
  | none =>
    have joins := shape.joins isSkip
    by_cases empty : tiles = []
    · exact .none empty joins
    · obtain ⟨tile, member, stops⟩ := collapsed.covered.exists_stop empty
      have runsOn : RunsOn middle.graph tile := by
        rcases tile_cases shape collapsed member with runsOn | ⟨entry, some, _⟩
        · exact runsOn
        · exact absurd (isSkip.symm.trans some) (by simp)
      exact .falls member (stops.trans joins.symm) joins runsOn.goesOn (runsOn.leads.trans (by rw [stops]))
  | some entry =>
    obtain ⟨isKept, jumps, stops⟩ := shape.skips entry isSkip
    obtain ⟨member, stands⟩ := collapsed.kept entry isKept
    refine .jumps member (stands.stop.trans stops) (shape.lt_stop collapses).2.2 ?_ ?_ fun jump only => ?_
    · rw [Node.jumpTarget?, Node.targetOf?, Node.last?, stands.instructions, PlannedBlock.getLast?_instructions jumps]
      rfl
    · rw [stands.leads, PlannedBlock.leads, jumps]
      rfl
    · rw [stands.instructions] at only
      rw [PlannedBlock.address_of_single only, stands.start]

/-- The blocks that lose a branch are blocks of the part that the conditional takes in. -/
theorem mem_of_gone (member : id ∈ (skip.map (·.1)).toList ++ [head.1]) :
    id ∈ head.1 :: tiles ∧ (middle.graph.node id).kind.isBlock = true := by
  rcases List.mem_append.mp member with isSkip | isHead
  · obtain ⟨entry, skips, rfl⟩ := Option.map_eq_some_iff.mp (Option.mem_toList.mp isSkip)
    obtain ⟨isTile, stands⟩ := collapsed.kept entry (shape.skips entry skips).1
    refine ⟨.tail _ isTile, ?_⟩
    rw [stands.kind]
    rfl
  · rw [List.mem_singleton.mp isHead]
    refine ⟨.head _, ?_⟩
    rw [(stands_head collapses shape ready collapsed).kind]
    rfl

variable {new : NodeId} (done : BuiltIf middle.graph root last front (head.1 :: tiles) back head.1
  ((skip.map (·.1)).toList ++ [head.1]) (skip.map (·.1)).isSome head.2.start arms.stop middle next new)
include done

theorem bared_of_built {entry : NodeId × PlannedBlock} (member : entry ∈ head :: arms.blocks) :
    (next.graph.node entry.1).kind = .block ⟨entry.1, placeFrom entry.2.start entry.2.body⟩ := by
  have same {one two : NodeId × PlannedBlock} (isOne : one ∈ head :: arms.blocks) (isTwo : two ∈ head :: arms.blocks) :
      one.1 = two.1 → one = two := eq_of_id (shape.chained collapses) ready.stands isOne isTwo
  have level := ready.level_of_mem member
  have bound : entry.1 < middle.graph.size :=
    Nat.lt_of_lt_of_le (lt_size_of_parent level) collapsed.reworks.size
  by_cases isGone : entry = head ∨ skip = some entry
  · obtain ⟨opcode, target, jumps, stands⟩ : ∃ opcode target, entry.2.jump = some (opcode, target) ∧
        Stands middle.graph entry.1 entry.2 := by
      rcases isGone with rfl | isSkip
      · exact ⟨.bf, address, shape.jumps, stands_head collapses shape ready collapsed⟩
      · obtain ⟨isKept, jumps, _⟩ := shape.skips entry isSkip
        exact ⟨.b, arms.stop, jumps, (collapsed.kept entry isKept).2⟩
    have isMember : entry.1 ∈ (skip.map (·.1)).toList ++ [head.1] := by
      rcases isGone with rfl | isSkip
      · simp
      · simp [isSkip]
    rw [done.strips.cut entry.1 isMember _ stands.kind]
    simp [PlannedBlock.instructions_eq_concat jumps]
  · rw [not_or] at isGone
    have stays : entry.1 ∉ (skip.map (·.1)).toList ++ [head.1] := fun isMember => by
      rcases List.mem_append.mp isMember with isSkip | isHead
      · obtain ⟨other, isSkip, sameId⟩ := Option.map_eq_some_iff.mp (Option.mem_toList.mp isSkip)
        have isOther := collapses.known other (shape.skips other isSkip).1
        exact isGone.2 (same (.tail _ isOther) member sameId ▸ isSkip)
      · exact isGone.1 (same member (.head _) (List.mem_singleton.mp isHead))
    have inArms := (List.mem_cons.mp member).resolve_left isGone.1
    rw [done.strips.kept entry.1 bound (ready.ne_root level) stays]
    by_cases isKept : entry ∈ arms.keep
    · have plain := (shape.plain entry isKept).resolve_right isGone.2
      rw [(collapsed.kept entry isKept).2.kind, PlannedBlock.instructions_eq_body plain.jump]
    · exact collapsed.bared entry inArms isKept

/-- What is in an arm directly is in the conditional, and the rest is where it was. -/
theorem owned_of_built (isBuilt : (entry.1, id) ∈ built) (isFor : StandsFor middle.graph arms.blocks entry.1 id)
    (owned : Owned middle.graph tiles built id entry.2) :
    StandsFor next.graph (head :: arms.blocks) entry.1 id ∧
      Owned next.graph [new] (built ++ [(conditional, new)]) id (entry.2.or (some conditional)) := by
  obtain ⟨stop, parts, block, target, isKind, hasElse, member, jumps, turn⟩ := isFor
  obtain ⟨trimmed, ifParts, wraps, _, _⟩ := done.wraps
  have reworks := done.reworks (span_head collapses shape ready collapsed) fun id =>
    mem_of_gone collapses shape ready collapsed
  have isNew := collapsed.made _ isBuilt
  have bound : id < middle.graph.size := by
    refine Nat.lt_of_not_le fun outside => ?_
    rw [node_of_size_le outside] at isKind
    exact absurd isKind (by simp [Node.absent])
  have noBlock : (middle.graph.node id).kind.isBlock = false := by rw [isKind]; rfl
  refine ⟨⟨(reworks.stops id bound).trans stop, parts, block, target, ?_, hasElse, .tail _ member, jumps, turn⟩, ?_⟩
  · rw [reworks.kinds id bound (Nat.ne_of_gt (Nat.lt_of_lt_of_le ready.rooted isNew)) (.inr noBlock), isKind]
  · cases around : entry.2 with
    | none =>
      rw [around] at owned
      refine ⟨new, List.mem_append_right _ (.head _), ?_⟩
      rw [wraps.parents id bound, if_pos (.tail _ owned)]
    | some outer =>
      rw [around] at owned
      obtain ⟨owner, among, parent⟩ := owned
      -- What is in another conditional is not on the level of the fragment.
      have apart : id ∉ head.1 :: tiles := fun inner => by
        have level := (span_head collapses shape ready collapsed).level (mem_row_of_inner inner)
        have isRoot := Option.some.inj (parent.symm.trans level)
        exact Nat.not_lt_of_le (collapsed.made _ among) (isRoot ▸ ready.rooted)
      refine ⟨owner, List.mem_append_left _ among, ?_⟩
      rw [wraps.parents id bound, if_neg apart, parent]

theorem collapsed_wrap (tidied : next.Tidied True)
    (turn : head.2.start + extent head.2.body = conditional.turn) (join : arms.stop = conditional.join)
    (hasElse : skip.isSome = conditional.hasElse) :
    Collapsed (arms.wrap head conditional) root last front back finish session next [new]
      (built ++ [(conditional, new)]) := by
  have span := span_head collapses shape ready collapsed
  have bounds := shape.lt_stop collapses
  have rooted := Nat.lt_of_lt_of_le ready.rooted collapsed.reworks.size
  have reworks := done.reworks span fun id => mem_of_gone collapses shape ready collapsed
  obtain ⟨trimmed, parts, wraps, isCondition, isElse⟩ := done.wraps
  constructor
  case toParted =>
    have follows := shape.follows
    exact (wraps.span_next span rooted (by omega)).toParted
  case reworks =>
    refine collapsed.reworks.trans reworks ready.rooted (fun _ => .tail _) fun id member => ?_
    rcases List.mem_cons.mp member with rfl | isTile
    · exact .inl (.head _)
    · rcases collapsed.cases id isTile with ⟨isNew, _⟩ | ⟨entry, isKept, rfl⟩
      · exact .inr isNew
      · exact .inl (.tail _ (List.mem_map_of_mem (collapses.known entry isKept)))
  case tidied => exact tidied
  case cases =>
    intro tile member
    rw [List.mem_singleton.mp member]
    refine .inl ⟨Nat.le_trans collapsed.reworks.size wraps.size.1, ?_, ?_⟩
    · rw [wraps.leadsOn, wraps.made.2.1]
    · rw [Node.jumpTarget?, Node.targetOf?, Node.last?, Node.instructions, wraps.made.2.2.2]
      rfl
  case kept => exact List.forall_mem_nil _
  case bared => exact fun entry member _ => bared_of_built collapses shape ready collapsed done member
  case listed =>
    simp only [Part.wrap, List.map_append, List.map_cons, List.map_nil, List.reverse_cons, List.map_map,
      collapsed.listed, Function.comp_def]
  case made =>
    intro entry member
    rcases List.mem_append.mp member with isOld | isNew
    · exact collapsed.made entry isOld
    · rw [List.mem_singleton.mp isNew]
      exact Nat.le_trans collapsed.reworks.size wraps.size.1
  case nested =>
    intro entry member
    rcases List.mem_cons.mp member with rfl | inArms
    · refine ⟨new, List.mem_append_right _ (.head _), ⟨wraps.made.2.1.trans join, parts, head.2, address,
        wraps.made.2.2.2, ?_, ?_, shape.jumps, turn⟩, .head _⟩
      · rw [isElse, Option.isSome_map, hasElse]
      · rw [isCondition]
        exact .head _
    · obtain ⟨inner, isInner, rfl⟩ := List.mem_map.mp inArms
      obtain ⟨id, isBuilt, isFor, owned⟩ := collapsed.nested inner isInner
      exact ⟨id, List.mem_append_left _ isBuilt,
        owned_of_built collapses shape ready collapsed done isBuilt isFor owned⟩
  case frame =>
    rw [done.frame, collapsed.frame, List.map_append, List.append_assoc]
    rfl
  case claims => rw [done.claims, collapsed.claims]

omit ready collapsed done in
theorem Collapses.wrap (ahead : head.2.start < address) (turn : head.2.start + extent head.2.body = conditional.turn)
    (join : arms.stop = conditional.join) (hasElse : skip.isSome = conditional.hasElse) :
    Collapses source (arms.wrap head conditional) where
  chained := shape.chained collapses
  ahead entry member := by
    rcases List.mem_cons.mp member with rfl | inArms
    · intro place among
      have bounds := shape.lt_stop collapses
      rw [PlannedBlock.leads, shape.jumps] at among
      simp only [reduceCtorEq, if_false, List.mem_cons, List.not_mem_nil, or_false] at among
      rcases among with rfl | rfl
      · exact bounds.1
      · exact ahead
    · exact collapses.ahead entry inArms
  within _ member := absurd member List.not_mem_nil
  known _ member := absurd member List.not_mem_nil
  reaches {session root last front back finish} ready := by
    have heads : (arms.wrap head conditional).heads.reverse = arms.heads.reverse ++ [head.1] := by
      simp [Part.heads, Part.wrap, shape.jumps]
    rw [heads]
    refine .forM_append (.imp (collapses.reaches (ready_arms collapses shape ready)) ?_)
    rintro _ middle ⟨tiles, built, collapsed⟩
    have span := span_head collapses shape ready collapsed
    have isHead := stands_head collapses shape ready collapsed
    have leads := leads_arms collapses shape ready collapsed
    have ends := armEnds collapses shape collapsed
    have rootless := (ready_arms collapses shape ready).rootless_of_reworks collapsed.reworks
    obtain ⟨behind, others, isBack⟩ := List.exists_cons_of_ne_nil ready.more
    rw [isBack] at span
    have isBlock : (middle.graph.node head.1).kind.isBlock = true := by
      rw [isHead.kind]
      rfl
    have builds : Succeeds (buildConditional source head.1) middle _ :=
      reaches_buildConditional span collapsed.tidied.closed
        (Nat.lt_of_lt_of_le ready.rooted collapsed.reworks.size) (fun id member => ?_) rfl ?_ leads ?_ ends
    · rw [← isBack] at builds
      refine .bind (.and_returns builds (.tidies collapsed.tidied
        (revises_buildConditional trivial) (tidies_buildConditional collapsed.tidied isBlock))) ?_
      rintro _ next ⟨⟨new, done⟩, _, tidied, _⟩
      refine .pure ⟨[new], built ++ [(conditional, new)], ?_⟩
      exact collapsed_wrap collapses shape ready collapsed done tidied turn join hasElse
    · rintro rfl
      exact rootless (span.level (mem_row_of_inner member))
    · rw [Node.targetOf?, Node.last?, isHead.instructions, PlannedBlock.getLast?_instructions shape.jumps]
      rfl
    · rw [isHead.leads, isHead.stop, PlannedBlock.leads, shape.jumps]
      rfl

end

end Structuring.BranchNest
