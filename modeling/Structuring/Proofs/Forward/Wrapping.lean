import Structuring.Proofs.Forward.Row

/-! A structure put around a span of a row.

A new node takes the place of the first node in the span, leads on to what is behind the span, and
takes in what starts in it. If the edges inside stay inside, and those outside do not lead behind the
start of the span, no edge crosses its boundary.
-/

namespace Structuring.Forward

open Bytecode Recovery FlowGraph LoopNest

variable {graph trimmed placed : FlowGraph} {root last new first join tile source target : NodeId}
  {kind : Kind} {start stop finish : Nat} {front more back : List NodeId}

/-! Spans -/

theorem mem_row_of_inner {inner : List NodeId} (member : tile ∈ inner) : tile ∈ front ++ inner ++ back :=
  List.mem_append_left _ (List.mem_append_right _ member)

theorem mem_row_of_outer {inner : List NodeId} (member : tile ∈ front ++ back) : tile ∈ front ++ inner ++ back := by
  rcases List.mem_append.mp member with early | late
  · exact List.mem_append_left _ (List.mem_append_left _ early)
  · exact List.mem_append_right _ late

structure Parted (graph : FlowGraph) (root last : NodeId) (front inner back : List NodeId)
    (start stop finish : Nat) : Prop where
  row : Row graph root (front ++ inner ++ back) last finish
  before : Tiled graph 0 front start
  covered : Tiled graph start inner stop
  behind : Tiled graph stop back finish

structure Span (graph : FlowGraph) (root last : NodeId) (front inner back : List NodeId)
    (start stop finish : Nat) : Prop extends Parted graph root last front inner back start stop finish where
  outside : ∀ tile ∈ front ++ back, ∀ address ∈ startsAfter graph tile, address ≤ start ∨ stop ≤ address

namespace Parted

variable {inner : List NodeId} (span : Parted graph root last front inner back start stop finish)
include span

theorem level (member : tile ∈ front ++ inner ++ back) :
    (graph.node tile).parent = some root := (span.row.level tile).mpr (.inl member)

theorem mem_cases (level : (graph.node tile).parent = some root) :
    tile ∈ inner ∨ tile ∈ front ++ back ∨ tile = last := by
  rcases (span.row.level tile).mp level with member | isLast
  · rcases List.mem_append.mp member with early | late
    · rcases List.mem_append.mp early with early | inner
      · exact .inr (.inl (List.mem_append_left _ early))
      · exact .inl inner
    · exact .inr (.inl (List.mem_append_right _ late))
  · exact .inr (.inr isLast)

theorem start_outer (member : tile ∈ front ++ back) :
    (graph.node tile).start < start ∨ stop ≤ (graph.node tile).start := by
  rcases List.mem_append.mp member with early | late
  · have := span.before.bounds early
    omega
  · exact .inr (span.behind.bounds late).1

theorem start_inner (member : tile ∈ inner) :
    start ≤ (graph.node tile).start ∧ (graph.node tile).start < stop := by
  have := span.covered.bounds member
  omega

theorem start_last : stop ≤ (graph.node last).start := by
  rw [span.row.lastStart]
  exact span.behind.le

theorem not_inner (member : tile ∈ front ++ back) : tile ∉ inner := by
  intro inner
  have := span.start_outer member
  have := span.start_inner inner
  omega

theorem last_not_inner : last ∉ inner := by
  intro inner
  have := span.start_last
  have := span.start_inner inner
  omega

theorem bound_inner (member : tile ∈ inner) : tile < graph.size :=
  span.row.bound (mem_row_of_inner member)

theorem bound_outer (member : tile ∈ front ++ back) : tile < graph.size :=
  span.row.bound (mem_row_of_outer member)

theorem bound_last : last < graph.size := lt_size_of_parent ((span.row.level last).mpr (.inr rfl))

end Parted

/-! New nodes -/

structure Placed (graph next : FlowGraph) (root new : NodeId) (kind : Kind) (start stop : Nat) : Prop where
  size : graph.size ≤ new ∧ new < next.size
  old : ∀ id < graph.size, next.node id = graph.node id
  made : next.node new = { start, stop, parent := some root, kind }
  fresh : ∀ id, graph.size ≤ id → id ≠ new → (next.node id).parent ≠ some root ∧
    (next.node id).successors = [] ∧ (next.node id).predecessors = [] ∧ (next.node id).kind.isBlock = false

namespace Placed

variable (place : Placed graph placed root new kind start stop)
include place

theorem edges (outside : graph.size ≤ tile) :
    (placed.node tile).successors = [] ∧ (placed.node tile).predecessors = [] := by
  by_cases here : tile = new
  · rw [here, place.made]
    exact ⟨rfl, rfl⟩
  · exact ⟨(place.fresh tile outside here).2.1, (place.fresh tile outside here).2.2.1⟩

theorem sameEdges : SameEdges graph placed := by
  refine ⟨fun tile => ?_, fun tile => ?_⟩ <;> rcases Nat.lt_or_ge tile graph.size with bound | outside
  · rw [place.old tile bound]
  · rw [(place.edges outside).1, node_of_size_le outside]
    rfl
  · rw [place.old tile bound]
  · rw [(place.edges outside).2, node_of_size_le outside]
    rfl

theorem lt (bound : tile < graph.size) : tile < placed.size :=
  Nat.lt_trans bound (Nat.lt_of_le_of_lt place.size.1 place.size.2)

theorem closed (closed : graph.ClosedUnder id) : placed.ClosedUnder id := by
  refine ⟨place.sameEdges.mutual closed.edgesAgree, fun source target member => ?_⟩
  rw [place.sameEdges.successors] at member
  rw [place.old source (lt_size_of_mem_successors member), place.old target (closed.edgesAgree.target_lt member)]
  exact closed.levels source target member

theorem leads (agree : graph.Mutual) (bound : tile < graph.size) :
    startsAfter placed tile = startsAfter graph tile := by
  rw [startsAfter, place.old tile bound]
  exact List.map_congr_left fun target member => by rw [place.old target (agree.target_lt member)]

end Placed

/-! The new node in its place -/

structure Wrapping (graph trimmed placed : FlowGraph) (root last : NodeId) (front : List NodeId) (first : NodeId)
    (more : List NodeId) (join : NodeId) (back : List NodeId) (new : NodeId) (kind : Kind)
    (start stop finish : Nat) : Prop where
  span : Span graph root last front (first :: more) (join :: back) start stop finish
  closed : graph.ClosedUnder id
  rooted : root < graph.size
  trims : Trims graph trimmed root (first :: more) start stop
  inside : ∀ tile ∈ first :: more, ∀ address ∈ startsAfter trimmed tile, start < address ∧ address < stop
  place : Placed trimmed placed root new kind start stop

def linked (graph : FlowGraph) (first new join : NodeId) : FlowGraph :=
  (graph.substitute first new).addEdge new join

theorem keeps_linked (placed : FlowGraph) (first new join : NodeId) : Keeps placed (linked placed first new join) :=
  (Keeps.substitute placed first new).trans (.addEdge _ _ _)

theorem size_linked (placed : FlowGraph) (first new join : NodeId) :
    (linked placed first new join).size = placed.size := by
  rw [linked, size_addEdge, size_substitute]

theorem start_linked (placed : FlowGraph) (first new join tile : NodeId) :
    ((linked placed first new join).node tile).start = (placed.node tile).start := by
  rcases Nat.lt_or_ge tile placed.size with bound | outside
  · exact (keeps_linked placed first new join).start tile bound
  · rw [node_of_size_le outside, node_of_size_le ((size_linked placed first new join).symm ▸ outside)]

theorem parent_linked (placed : FlowGraph) (first new join tile : NodeId) :
    ((linked placed first new join).node tile).parent = (placed.node tile).parent := by
  rcases Nat.lt_or_ge tile placed.size with bound | outside
  · exact (keeps_linked placed first new join).parent tile bound
  · rw [node_of_size_le outside, node_of_size_le ((size_linked placed first new join).symm ▸ outside)]

namespace Wrapping

variable (wrapping : Wrapping graph trimmed placed root last front first more join back new kind start stop finish)
include wrapping

theorem start_old (bound : tile < graph.size) : (placed.node tile).start = (graph.node tile).start := by
  rw [wrapping.place.old tile (wrapping.trims.keeps.lt bound), wrapping.trims.keeps.start tile bound]

theorem stop_old (bound : tile < graph.size) : (placed.node tile).stop = (graph.node tile).stop := by
  rw [wrapping.place.old tile (wrapping.trims.keeps.lt bound), wrapping.trims.keeps.stop tile bound]

theorem parent_old (bound : tile < graph.size) : (placed.node tile).parent = (graph.node tile).parent := by
  rw [wrapping.place.old tile (wrapping.trims.keeps.lt bound), wrapping.trims.keeps.parent tile bound]

theorem size_le : graph.size ≤ new := Nat.le_trans wrapping.trims.keeps.size wrapping.place.size.1

theorem lt (bound : tile < graph.size) : tile < placed.size :=
  wrapping.place.lt (wrapping.trims.keeps.lt bound)

/-- The nodes of the level: the new one, those of the row, and new ones in the span. -/
theorem level_cases (level : (placed.node tile).parent = some root) :
    tile = new ∨ tile < graph.size ∧ (graph.node tile).parent = some root ∨
      graph.size ≤ tile ∧ tile < trimmed.size ∧ start < (placed.node tile).start ∧
        (placed.node tile).start < stop := by
  rcases Nat.lt_or_ge tile trimmed.size with bound | outside
  · rcases Nat.lt_or_ge tile graph.size with old | fresh
    · rw [wrapping.parent_old old] at level
      exact .inr (.inl ⟨old, level⟩)
    · rw [wrapping.place.old tile bound] at level ⊢
      exact .inr (.inr ⟨fresh, bound, wrapping.trims.fresh tile fresh level⟩)
  · by_cases here : tile = new
    · exact .inl here
    · exact absurd level (wrapping.place.fresh tile outside here).1

theorem onLevel (member : tile ∈ front ++ (first :: more) ++ join :: back) :
    placed.OnLevel id (some root) tile := by
  have bound := wrapping.span.row.bound member
  refine ⟨wrapping.lt bound, ?_⟩
  rw [wrapping.parent_old bound]
  exact wrapping.span.level member

theorem onLevel_new : placed.OnLevel id (some root) new :=
  ⟨wrapping.place.size.2, by rw [wrapping.place.made]; rfl⟩

theorem first_ne_new : first ≠ new :=
  Nat.ne_of_lt (Nat.lt_of_lt_of_le (wrapping.span.bound_inner (.head _)) wrapping.size_le)

theorem relinks : Relinks id placed (linked placed first new join) := by
  have moves : Relinks id placed (placed.substitute first new) :=
    .substitute (wrapping.onLevel (mem_row_of_inner (.head _))) wrapping.onLevel_new
  exact moves.trans (.addEdge (moves.onLevel wrapping.onLevel_new)
    (moves.onLevel (wrapping.onLevel (List.mem_append_right _ (.head _)))))

theorem closed_placed : placed.ClosedUnder id :=
  wrapping.place.closed (wrapping.trims.relinks.closed wrapping.closed)

theorem kind_linked (apart : tile ≠ root) :
    ((linked placed first new join).node tile).kind = (placed.node tile).kind := by
  rw [linked, (sameCores_addEdge new join).kind, kind_substitute]
  have level : (placed.node first).parent = some root := (wrapping.onLevel (mem_row_of_inner (.head _))).level
  rw [level]
  exact fun here => apart (Option.some.inj here).symm

/-- Edges lead to the addresses that they led to, and the new node leads on. -/
theorem leads_linked (tile : NodeId) : startsAfter (linked placed first new join) tile =
    if tile = new then [stop] else startsAfter placed tile := by
  have sameStart : (placed.node new).start = (placed.node first).start := by
    rw [wrapping.place.made, wrapping.start_old (wrapping.span.bound_inner (.head _)), wrapping.span.covered.1]
  have moves := map_successors_substitute (fun target => (placed.node target).start) sameStart placed
  have bound : new < (placed.substitute first new).size := by
    rw [size_substitute]
    exact wrapping.place.size.2
  have starts : (fun target => ((linked placed first new join).node target).start) =
      fun target => (placed.node target).start := funext (start_linked placed first new join)
  have edges := successors_addEdge bound join tile
  rw [startsAfter, starts]
  unfold linked
  rw [edges]
  by_cases here : tile = new
  · subst here
    rw [if_pos rfl, if_pos rfl, List.map_append, moves, (wrapping.place.edges wrapping.place.size.1).1]
    have joins := wrapping.start_old (wrapping.span.row.bound (List.mem_append_right _ (.head _)))
    simp [joins, wrapping.span.behind.1]
  · rw [if_neg (Ne.symm here), if_neg here, moves]
    rfl

theorem leads_placed (bound : tile < trimmed.size) : startsAfter placed tile = startsAfter trimmed tile :=
  wrapping.place.leads (wrapping.trims.relinks.closed wrapping.closed).edgesAgree bound

theorem not_mem_linked (source : NodeId) : first ∉ ((linked placed first new join).node source).successors := by
  intro member
  have bound : new < (placed.substitute first new).size := by
    rw [size_substitute]
    exact wrapping.place.size.2
  rw [linked, successors_addEdge bound] at member
  have gone := not_mem_successors_substitute wrapping.closed_placed.edgesAgree wrapping.first_ne_new
    wrapping.place.size.2
  have apart : first ≠ join := by
    rintro rfl
    exact wrapping.span.not_inner (List.mem_append_right _ (.head _)) (.head _)
  split at member
  · rcases List.mem_append.mp member with old | added
    · exact gone _ old
    · exact apart (List.mem_singleton.mp added)
  · exact gone _ member

def Covers (placed : FlowGraph) (new tile : NodeId) (start stop : Nat) : Prop :=
  tile ≠ new ∧ start ≤ (placed.node tile).start ∧ (placed.node tile).start < stop

omit wrapping in
theorem not_covers (outside : (placed.node tile).start < start ∨ stop ≤ (placed.node tile).start) :
    ¬Covers placed new tile start stop := by
  rintro ⟨_, after, before⟩
  omega

theorem covers_of_inner (inner : source ∈ first :: more)
    (among : (placed.node target).start ∈ startsAfter trimmed source) :
    Covers placed new source start stop ∧ Covers placed new target start stop := by
  have bound := wrapping.span.bound_inner inner
  obtain ⟨after, before⟩ := wrapping.inside source inner _ among
  refine ⟨⟨?_, ?_⟩, ?_, Nat.le_of_lt after, before⟩
  · exact Nat.ne_of_lt (Nat.lt_of_lt_of_le bound wrapping.size_le)
  · rw [wrapping.start_old bound]
    exact wrapping.span.start_inner inner
  · rintro rfl
    rw [wrapping.place.made] at after
    exact absurd after (Nat.lt_irrefl _)

/-- What is not in the span leads to its start at most, and there the new node is. -/
theorem not_covers_of_outer (outer : source ∈ front ++ join :: back)
    (level : (placed.node target).parent = some root)
    (member : target ∈ ((linked placed first new join).node source).successors)
    (among : (placed.node target).start ∈ startsAfter graph source) : ¬Covers placed new target start stop := by
  have span := wrapping.span
  rintro ⟨apart, after, before⟩
  have sameStart : (placed.node target).start = start := by
    rcases span.outside source outer _ among with early | late
    · exact Nat.le_antisymm early after
    · exact absurd before (Nat.not_lt_of_le late)
  rcases wrapping.level_cases level with here | ⟨bound, old⟩ | ⟨_, _, later, _⟩
  · exact apart here
  · rw [wrapping.start_old bound] at sameStart
    have isFirst : target = first := span.row.eq_of_start old (span.level (mem_row_of_inner (.head _)))
      (sameStart.trans span.covered.1.symm)
    rw [isFirst] at member
    exact wrapping.not_mem_linked source member
  · exact absurd sameStart (Nat.ne_of_gt later)

theorem covers_iff (level : (placed.node source).parent = some root)
    (targetLevel : (placed.node target).parent = some root)
    (member : target ∈ ((linked placed first new join).node source).successors) :
    Covers placed new source start stop ↔ Covers placed new target start stop := by
  have span := wrapping.span
  have among : (placed.node target).start ∈ startsAfter (linked placed first new join) source := by
    rw [← start_linked]
    exact List.mem_map_of_mem member
  rw [wrapping.leads_linked] at among
  split at among
  · next isNew =>
    refine iff_of_false (fun taken => taken.1 isNew) (not_covers (.inr ?_))
    exact Nat.le_of_eq (List.mem_singleton.mp among).symm
  · next isOld =>
    rcases wrapping.level_cases level with here | ⟨bound, sourceLevel⟩ | ⟨fresh, bound, _⟩
    · exact absurd here isOld
    · rw [wrapping.leads_placed (wrapping.trims.keeps.lt bound)] at among
      rcases span.mem_cases sourceLevel with inner | outer | rfl
      · obtain ⟨covered, covers⟩ := wrapping.covers_of_inner inner among
        exact iff_of_true covered covers
      · rw [wrapping.trims.others source bound (span.not_inner outer)] at among
        refine iff_of_false (not_covers ?_) (wrapping.not_covers_of_outer outer targetLevel member among)
        rw [wrapping.start_old bound]
        exact span.start_outer outer
      · rw [wrapping.trims.others source bound span.last_not_inner, startsAfter, span.row.lastEdges] at among
        cases among
    · rw [wrapping.leads_placed bound, startsAfter, (wrapping.trims.bare source fresh).1] at among
      cases among

theorem tight : ((linked placed first new join).absorb new (some root) start stop).leak? new = none := by
  have closed := wrapping.relinks.closed wrapping.closed_placed
  refine leak?_absorb closed fun source target member level => ?_
  have targetLevel : ((linked placed first new join).node target).parent = some root :=
    (closed.levels source target member).trans level
  rw [parent_linked] at level targetLevel
  simp only [Node.startsWithin, start_linked, Bool.and_eq_true, decide_eq_true_eq]
  exact wrapping.covers_iff level targetLevel member

end Wrapping

/-! Rows with structures in them -/

structure Wraps (graph trimmed next : FlowGraph) (root last : NodeId) (front inner back : List NodeId)
    (new : NodeId) (kind : Kind) (start stop : Nat) : Prop where
  size : graph.size ≤ new ∧ new < next.size
  starts : ∀ id < graph.size, (next.node id).start = (graph.node id).start
  stops : ∀ id < graph.size, (next.node id).stop = (graph.node id).stop
  parents : ∀ id < graph.size, (next.node id).parent =
    if id ∈ inner then some new else (graph.node id).parent
  kinds : ∀ id < graph.size, id ≠ root → (next.node id).kind = (trimmed.node id).kind
  made : (next.node new).start = start ∧ (next.node new).stop = stop ∧
    (next.node new).parent = some root ∧ (next.node new).kind = kind
  leads : ∀ tile ∈ front ++ back, startsAfter next tile = startsAfter graph tile
  leadsOn : startsAfter next new = [stop]
  lastEdges : (next.node last).successors = []
  fresh : ∀ id, graph.size ≤ id → id ≠ new → (next.node id).parent ≠ some root ∧
    (next.node id).kind.isBlock = false

namespace Wrapping

variable (wrapping : Wrapping graph trimmed placed root last front first more join back new kind start stop finish)
include wrapping

theorem new_ne_root : new ≠ root := Nat.ne_of_gt (Nat.lt_of_lt_of_le wrapping.rooted wrapping.size_le)

theorem taken_iff (bound : tile < graph.size) :
    (tile < placed.size ∧ tile ≠ new ∧ (placed.node tile).parent = some root ∧
      (placed.node tile).startsWithin start stop = true) ↔ tile ∈ first :: more := by
  have span := wrapping.span
  rw [wrapping.parent_old bound, Node.startsWithin, wrapping.start_old bound]
  simp only [Bool.and_eq_true, decide_eq_true_eq]
  constructor
  · rintro ⟨_, _, level, within⟩
    rcases span.mem_cases level with inner | outer | rfl
    · exact inner
    · have := span.start_outer outer
      omega
    · have := span.start_last
      omega
  · intro inner
    exact ⟨wrapping.lt bound, Nat.ne_of_lt (Nat.lt_of_lt_of_le bound wrapping.size_le),
      span.level (mem_row_of_inner inner), span.start_inner inner⟩

theorem wraps {next : FlowGraph} (isNext : next = (linked placed first new join).absorb new (some root) start stop) :
    Wraps graph trimmed next root last front (first :: more) (join :: back) new kind start stop := by
  have span := wrapping.span
  have fields {α : Type} (field : Node → α) (fixed : ∀ node parent, field { node with parent } = field node)
      (id : NodeId) : field (next.node id) = field ((linked placed first new join).node id) := by
    rw [isNext, node_absorb]
    split
    · exact fixed _ _
    · rfl
  have starts := fields (·.start) fun _ _ => rfl
  have stops := fields (·.stop) fun _ _ => rfl
  have kinds := fields (·.kind) fun _ _ => rfl
  have leads (id : NodeId) : startsAfter next id = startsAfter (linked placed first new join) id := by
    rw [startsAfter, fields (·.successors) fun _ _ => rfl]
    exact List.map_congr_left fun target _ => starts target
  have parents (id : NodeId) : (next.node id).parent =
      if id < placed.size ∧ id ≠ new ∧ (placed.node id).parent = some root ∧
        (placed.node id).startsWithin start stop then some new else (placed.node id).parent := by
    rw [isNext, parent_absorb, size_linked, parent_linked, Node.startsWithin, Node.startsWithin, start_linked]
  have outer {id : NodeId} (bound : id < graph.size) (apart : id ∉ first :: more) :
      startsAfter next id = startsAfter graph id := by
    rw [leads, wrapping.leads_linked, if_neg (Nat.ne_of_lt (Nat.lt_of_lt_of_le bound wrapping.size_le)),
      wrapping.leads_placed (wrapping.trims.keeps.lt bound), wrapping.trims.others id bound apart]
  have stops_linked (id : NodeId) (bound : id < placed.size) :
      ((linked placed first new join).node id).stop = (placed.node id).stop :=
    (keeps_linked placed first new join).stop id bound
  refine ⟨⟨wrapping.size_le, ?_⟩, fun id bound => ?_, fun id bound => ?_, fun id bound => ?_,
    fun id bound apart => ?_, ⟨?_, ?_, ?_, ?_⟩, fun tile member => ?_, ?_, ?_, fun id outside apart => ⟨?_, ?_⟩⟩
  · rw [isNext, size_absorb, size_linked]
    exact wrapping.place.size.2
  · rw [starts, start_linked, wrapping.start_old bound]
  · rw [stops, stops_linked id (wrapping.lt bound), wrapping.stop_old bound]
  · rw [parents, wrapping.parent_old bound]
    exact if_congr (wrapping.parent_old bound ▸ wrapping.taken_iff bound) rfl rfl
  · rw [kinds, wrapping.kind_linked apart, wrapping.place.old id (wrapping.trims.keeps.lt bound)]
  · rw [starts, start_linked, wrapping.place.made]
  · rw [stops, stops_linked new wrapping.place.size.2, wrapping.place.made]
  · rw [parents, if_neg fun taken => taken.2.1 rfl, wrapping.place.made]
  · rw [kinds, wrapping.kind_linked wrapping.new_ne_root, wrapping.place.made]
  · exact outer (span.bound_outer member) (span.not_inner member)
  · rw [leads, wrapping.leads_linked, if_pos rfl]
  · have none := outer span.bound_last span.last_not_inner
    rw [startsAfter, startsAfter, span.row.lastEdges] at none
    exact List.map_eq_nil_iff.mp none
  · rw [parents]
    split
    · exact fun here => wrapping.new_ne_root (Option.some.inj here)
    · next stays =>
      intro level
      rcases wrapping.level_cases level with here | ⟨bound, _⟩ | ⟨_, bound, after, before⟩
      · exact apart here
      · exact Nat.not_lt_of_le outside bound
      · refine stays ⟨wrapping.place.lt bound, apart, level, ?_⟩
        simp only [Node.startsWithin, Bool.and_eq_true, decide_eq_true_eq]
        omega
  · have notRoot : id ≠ root := Nat.ne_of_gt (Nat.lt_of_lt_of_le wrapping.rooted outside)
    rw [kinds, wrapping.kind_linked notRoot]
    rcases Nat.lt_or_ge id trimmed.size with bound | beyond
    · rw [wrapping.place.old id bound]
      exact (wrapping.trims.bare id outside).2
    · exact (wrapping.place.fresh id beyond apart).2.2.2

end Wrapping

namespace Wraps

variable {next : FlowGraph} {inner : List NodeId}
  (wraps : Wraps graph trimmed next root last front inner back new kind start stop)
include wraps

theorem ne_new (isOld : tile < graph.size) : tile ≠ new :=
  Nat.ne_of_lt (Nat.lt_of_lt_of_le isOld wraps.size.1)

theorem stays (isOld : tile < graph.size) (outer : tile ∉ inner) (level : (graph.node tile).parent = some root) :
    (next.node tile).parent = some root := by
  rw [wraps.parents tile isOld, if_neg outer, level]

variable (span : Span graph root last front inner back start stop finish) (rooted : root < graph.size)
include span rooted

theorem level_iff (id : NodeId) : (next.node id).parent = some root ↔ id ∈ front ++ [new] ++ back ∨ id = last := by
  have outer {tile : NodeId} (member : tile ∈ front ++ back) : (next.node tile).parent = some root :=
    wraps.stays (span.bound_outer member) (span.not_inner member) (span.level (mem_row_of_outer member))
  constructor
  · intro level
    rcases Nat.lt_or_ge id graph.size with old | fresh
    · rw [wraps.parents id old] at level
      split at level
      · exact absurd (Option.some.inj level) (Ne.symm (wraps.ne_new rooted))
      · next apart =>
        rcases span.mem_cases level with taken | member | isLast
        · exact absurd taken apart
        · left
          rcases List.mem_append.mp member with early | late
          · exact List.mem_append_left _ (List.mem_append_left _ early)
          · exact List.mem_append_right _ late
        · exact .inr isLast
    · by_cases here : id = new
      · exact .inl (here ▸ by simp)
      · exact absurd level (wraps.fresh id fresh here).1
  · rintro (member | rfl)
    · rcases List.mem_append.mp member with early | late
      · rcases List.mem_append.mp early with early | here
        · exact outer (List.mem_append_left _ early)
        · rw [List.mem_singleton.mp here]
          exact wraps.made.2.2.1
      · exact outer (List.mem_append_right _ late)
    · exact wraps.stays span.bound_last span.last_not_inner ((span.row.level _).mpr (.inr rfl))

theorem span_next (room : start < stop) : Span next root last front [new] back start stop finish := by
  have keeps {tiles : List NodeId} {low high : Nat} (tiled : Tiled graph low tiles high)
      (among : ∀ tile ∈ tiles, tile ∈ front ++ back) : Tiled next low tiles high :=
    tiled.congr (fun tile member => wraps.starts tile (span.bound_outer (among tile member)))
      fun tile member => wraps.stops tile (span.bound_outer (among tile member))
  have before := keeps span.before fun _ => List.mem_append_left _
  have behind := keeps span.behind fun _ => List.mem_append_right _
  have covered : Tiled next start [new] stop := ⟨wraps.made.1, wraps.made.2.1.symm ▸ room, wraps.made.2.1⟩
  refine ⟨⟨⟨wraps.level_iff span rooted, ?_, ?_, ?_, wraps.lastEdges⟩, before, covered, behind⟩,
    fun tile member address among => ?_⟩
  · exact tiled_append.mpr ⟨stop, tiled_append.mpr ⟨start, before, covered⟩, behind⟩
  · rw [wraps.starts last span.bound_last, span.row.lastStart]
  · rw [wraps.stops last span.bound_last, span.row.lastStop]
  · rw [wraps.leads tile member] at among
    exact span.outside tile member address among

end Wraps

/-! Rows that are worked on step by step -/

structure Reworks (graph next : FlowGraph) (root : NodeId) (inner : List NodeId) : Prop where
  size : graph.size ≤ next.size
  starts : ∀ id < graph.size, (next.node id).start = (graph.node id).start
  stops : ∀ id < graph.size, (next.node id).stop = (graph.node id).stop
  parents : ∀ id < graph.size, id ∉ inner → (next.node id).parent = (graph.node id).parent
  kinds : ∀ id < graph.size, id ≠ root → id ∉ inner ∨ (graph.node id).kind.isBlock = false →
    (next.node id).kind = (graph.node id).kind
  leads : ∀ id, (graph.node id).parent = some root → id ∉ inner → startsAfter next id = startsAfter graph id
  fresh : ∀ id, graph.size ≤ id → (next.node id).kind.isBlock = false

namespace Reworks

variable {next final : FlowGraph} {inner others : List NodeId}

theorem refl (graph : FlowGraph) (root : NodeId) (inner : List NodeId) : Reworks graph graph root inner where
  size := Nat.le_refl _
  starts _ _ := rfl
  stops _ _ := rfl
  parents _ _ _ := rfl
  kinds _ _ _ _ := rfl
  leads _ _ _ := rfl
  fresh _ outside := (Trims.absent_bare outside).2

/-- The second step may also work on nodes that the first one has made. -/
theorem trans (first : Reworks graph next root inner) (second : Reworks next final root others)
    (rooted : root < graph.size) {all : List NodeId} (among : ∀ id ∈ inner, id ∈ all)
    (orNew : ∀ id ∈ others, id ∈ all ∨ graph.size ≤ id) : Reworks graph final root all where
  size := Nat.le_trans first.size second.size
  starts id bound := (second.starts id (Nat.lt_of_lt_of_le bound first.size)).trans (first.starts id bound)
  stops id bound := (second.stops id (Nat.lt_of_lt_of_le bound first.size)).trans (first.stops id bound)
  parents id bound outside := by
    rw [second.parents id (Nat.lt_of_lt_of_le bound first.size) fun here =>
      (orNew id here).elim outside (Nat.not_le_of_lt bound), first.parents id bound fun here => outside (among id here)]
  kinds id bound apart cases := by
    have same := first.kinds id bound apart (cases.imp_left fun outside here => outside (among id here))
    refine (second.kinds id (Nat.lt_of_lt_of_le bound first.size) apart ?_).trans same
    rw [same]
    exact cases.imp_left fun outside here => (orNew id here).elim outside (Nat.not_le_of_lt bound)
  leads id level outside := by
    have bound := lt_size_of_parent level
    have apart : id ∉ inner := fun here => outside (among id here)
    have stays := (first.parents id bound apart).trans level
    rw [second.leads id stays fun here => (orNew id here).elim outside (Nat.not_le_of_lt bound),
      first.leads id level apart]
  fresh id outside := by
    rcases Nat.lt_or_ge id next.size with bound | beyond
    · have noBlock := first.fresh id outside
      rw [second.kinds id bound (Nat.ne_of_gt (Nat.lt_of_lt_of_le rooted outside)) (.inr noBlock)]
      exact noBlock
    · exact second.fresh id beyond

theorem tiled (reworks : Reworks graph next root inner) {tiles : List NodeId}
    (tiled : Tiled graph start tiles stop) (bounds : ∀ id ∈ tiles, id < graph.size) : Tiled next start tiles stop :=
  tiled.congr (fun id member => reworks.starts id (bounds id member)) fun id member =>
    reworks.stops id (bounds id member)

variable (reworks : Reworks graph next root inner) (level : (graph.node tile).parent = some root)
  (outside : tile ∉ inner) (apart : tile ≠ root)
include reworks level outside apart

theorem stands {block : PlannedBlock} (stands : Stands graph tile block) : Stands next tile block where
  start := (reworks.starts tile (lt_size_of_parent level)).trans stands.start
  stop := (reworks.stops tile (lt_size_of_parent level)).trans stands.stop
  kind := (reworks.kinds tile (lt_size_of_parent level) apart (.inl outside)).trans stands.kind
  leads := (reworks.leads tile level outside).trans stands.leads

theorem runsOn (runsOn : RunsOn graph tile) : RunsOn next tile where
  leads := by
    rw [reworks.leads tile level outside, reworks.stops tile (lt_size_of_parent level)]
    exact runsOn.leads
  goesOn := by
    have same := reworks.kinds tile (lt_size_of_parent level) apart (.inl outside)
    rw [Node.jumpTarget?, Node.targetOf?, Node.last?, Node.instructions, same]
    exact runsOn.goesOn

end Reworks

end Structuring.Forward
