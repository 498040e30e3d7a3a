import Structuring.Proofs.Provenance
import Structuring.Recovery.StaticInit

/-! Initializers of static variables as edits.

A guard goes on being one until its initializers are wrapped, and then its branch is gone.
-/

namespace Structuring.Recovery

open Bytecode FlowGraph

variable {rights : Rights} {session : Session} {source : Source}

theorem opcode_of_signal? {inst : Instruction} {signal : Signal} (isSignal : inst.signal? = some signal) :
    inst.opcode = .signal := by
  unfold Instruction.signal? at isSignal
  split at isSignal
  · exact eq_of_beq (Option.ite_none_right_eq_some.mp isSignal).1
  · cases isSignal

/-- A guard that loses instructions is still a guard, or its branch is among what it lost. -/
theorem guard_or_bare {before after : Node} (guards : isStaticGuard before = true)
    (only : BareBut .bt before.instructions) (becomes : before.Becomes after) :
    isStaticGuard after = true ∨ Bare after.instructions := by
  obtain ⟨front, back, isBefore, discards⟩ := becomes.instructions
  rcases List.eq_nil_or_concat back with rfl | ⟨init, last, rfl⟩
  · unfold isStaticGuard at guards ⊢
    rw [isBefore] at guards
    cases ends : after.instructions.reverse with
    | nil =>
      rw [List.reverse_eq_nil_iff] at ends
      exact .inr (ends ▸ List.forall_mem_nil _)
    | cons branch rest =>
      cases rest with
      | cons check rest => exact .inl (by simpa [ends] using guards)
      | nil =>
        -- What tests the flag would have been among the discards in front.
        exfalso
        rcases List.eq_nil_or_concat front with rfl | ⟨front, check, rfl⟩
        · simp [ends] at guards
        · have isSignal : check.signal? = some .isstaticok := by simp_all
          have discard := discards check (by simp)
          rw [opcode_of_signal? isSignal] at discard
          exact absurd discard (by decide)
  · refine .inr fun inst member => only.init inst ?_
    rw [isBefore, List.concat_eq_append, ← List.append_assoc, List.dropLast_concat]
    simp [member]

theorem revises_wrapInitializers {guard first target : NodeId} {level : Option NodeId} {start done : Nat}
    (free : rights.encloses) (isLevel : session.graph.IsLevel level) (guardBound : guard < session.graph.size)
    (firstBound : first < session.graph.size) (targetBound : target < session.graph.size) :
    Revises rights (wrapInitializers source guard first target level start done) session
      fun _ next => BareBut .bt (session.graph.node guard).instructions →
        Bare (next.graph.node guard).instructions := by
  refine .clip_bind (.single (.strip guard _ fun _ => List.take_prefix _ _)) fun cut _ toCut isCut _ => ?_
  have bare (only : BareBut .bt (session.graph.node guard).instructions) :
      Bare (cut.graph.node guard).instructions := by
    rw [isCut, (sameCores_clearSuccessors _ guard).instructions, dropInstructions,
      instructions_mapInstructions (by rfl)]
    refine fun inst member => only.init inst ?_
    rw [List.dropLast_eq_take]
    exact (List.take_subset_take_left _ (by omega)) member
  refine .addNode_bind rfl ?_ (toCut.isLevel isLevel) fun wrapper made madeSound toMade _ isNode _ => ?_
  · intro ref member
    exact List.mem_singleton.mp member ▸ toCut.lt firstBound
  have isOwner : made.graph.Owner wrapper := .of_kind (congrArg Node.kind isNode) rfl
  have toMade' := toCut.trans toMade
  extract_lets finish
  have onward (head : NodeId) (next : Session) (edits : Edits rights.staying made next)
      (headBound : head < next.graph.size) :
      Revises rights (finish head) next fun _ final =>
        BareBut .bt (session.graph.node guard).instructions → Bare (final.graph.node guard).instructions := by
    have becomes : (next.graph.node wrapper).kind.Becomes (.staticInit head) := by
      have becomes := (edits.grows.nodes wrapper isOwner.lt).kind
      rw [isNode] at becomes
      generalize (next.graph.node wrapper).kind = kind at becomes ⊢
      cases becomes
      exact .staticInit
    refine .modifyGraph_staying (GraphEdit.fill wrapper _ rfl becomes (fun ref member => ?_) (.inr (by simp))).one
      fun filled _ toFilled _ => ?_
    · exact List.mem_singleton.mp member ▸ headBound
    refine .modifyGraph_staying (Clips.cutEdgesInto _ _ _ _ _).edits fun parted _ toParted _ => ?_
    have toParted := (edits.trans toFilled).trans toParted
    have wrapperBound := toParted.lt isOwner.lt
    have links : GraphEdits rights.staying parted.graph
        ((parted.graph.addEdge guard wrapper).addEdge wrapper target) := by
      have size := (sameCores_addEdge guard wrapper : SameCores parted.graph _).size
      refine (edits_addEdge (toParted.lt (toMade'.lt guardBound)) wrapperBound).trans (edits_addEdge ?_ ?_)
      · rw [size]
        exact wrapperBound
      · rw [size]
        exact toParted.lt (toMade'.lt targetBound)
    refine .modifyGraph_staying links fun linked _ toLinked _ => ?_
    have toLinked := toParted.trans toLinked
    refine .enclose_bind free toLinked (.of_kind (congrArg Node.kind isNode) rfl rfl) (congrArg Node.parent isNode)
      (by simp [isNode]) fun closed _ toClosed => .getGraph_bind ?_
    have toClosed := (toLinked.mono rights.staying_within).trans toClosed
    refine .imp (.announce (toClosed.owner isOwner)) fun _ final same only => ?_
    rw [same]
    exact (toMade.trans toClosed).grows.bare (bare only) (toCut.lt guardBound)
  clear_value finish
  split
  · refine .bind_within rights.staying_within (.addNode rfl ?_ ?_) fun head next _ edits same => ?_
    · exact List.forall_mem_nil _
    · rintro _ ⟨⟩
      exact isOwner
    · refine onward head next edits ?_
      obtain ⟨rfl, rfl⟩ := same
      simp [Session.withGraph]
  · rw [pure_bind]
    exact onward first made .refl (toMade'.lt firstBound)

theorem revises_buildStaticInit {guard : NodeId} (free : rights.encloses) :
    Revises rights (buildStaticInit source guard) session fun _ next =>
      BareBut .bt (session.graph.node guard).instructions → Bare (next.graph.node guard).instructions := by
  refine .of_sound fun sound => .getContext_bind ?_
  extract_lets node
  split
  · next noTarget =>
    refine .pure fun only => only.bare fun inst last => ?_
    rw [Instruction.isBranch, (Option.bind_eq_none_iff.mp noTarget) inst last]
    rfl
  · next done isTarget =>
    extract_lets build
    have onward : Revises rights (build ()) session fun _ next =>
        BareBut .bt (session.graph.node guard).instructions → Bare (next.graph.node guard).instructions := by
      dsimp only [build]
      split
      · next first target isSuccessors =>
        have bounds (id : NodeId) (member : id ∈ [first, target]) : id < session.graph.size :=
          sound.graph.edges.target_lt (isSuccessors ▸ member)
        exact revises_wrapInitializers free (sound.graph.parents guard)
          (lt_size_of_mem_successors (isSuccessors ▸ List.mem_cons_self)) (bounds first (by simp))
          (bounds target (by simp))
      · exact .throw rfl
    split
    · exact .throw_bind rfl
    · exact onward

theorem revises_buildStaticInits (free : rights.encloses) :
    Revises rights (buildStaticInits source) session fun _ next =>
      source.features.has .staticInit = true → ∀ block ∈ session.blocks,
        isStaticGuard (session.graph.node block) = true →
          BareBut .bt (session.graph.node block).instructions → Bare (next.graph.node block).instructions := by
  refine .of_sound fun sound => ?_
  unfold buildStaticInits
  split
  · refine .getContext_bind ?_
    extract_lets guards
    have bounds (guard : NodeId) (member : guard ∈ guards) : guard < session.graph.size :=
      lt_size_of_isBlock ((sound.blocks guard).mp (List.mem_filter.mp member).1)
    refine .bind (.forM (fun guard next =>
      BareBut .bt (session.graph.node guard).instructions → Bare (next.graph.node guard).instructions) ?_ ?_)
      fun _ next _ _ bare => .pure fun _ block member guards only =>
        bare block (List.mem_filter.mpr ⟨member, guards⟩) only
    · intro guard member first second toFirst toSecond bare only
      exact toSecond.grows.bare (bare only) (toFirst.lt (bounds guard member))
    · intro guard member next toNext
      refine .imp (revises_buildStaticInit free) fun _ final bare only => ?_
      exact bare (toNext.grows.bareBut only (bounds guard member))
  · next absent => exact .pure fun present => absurd present absent

end Structuring.Recovery
