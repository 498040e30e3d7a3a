import Structuring.Proofs.Located
import Structuring.Proofs.Sequence

/-! Passes that report no change.

A pass says whether it changed anything. Most go over a list of what they have found and say whether it
was empty; others put together what their steps have said. Either way nothing was done if that is what
is said, so a pass that is not listed as changed has left everything alone.
-/

namespace Structuring

open Bytecode Recovery FlowGraph

variable {α : Type} {source : Source} {session : Session} {before : Bool} {step : Recover α}

namespace Recovery

abbrev Candid (before : Bool) (step : Recover Bool) (session : Session) : Prop :=
  Returns step session fun changed next => changed = false → before = false ∧ next = session

theorem Reaches.unknown : Returns step session fun _ _ => True := by
  constructor
  unfold Ends
  split <;> trivial

/-- A step that says that it changed something may do whatever it does. -/
theorem Reaches.changed {post : Session → Prop} :
    Returns (do let _ ← step; return true) session fun changed next => changed = false → post next :=
  .bind .unknown fun _ _ _ => .pure fun none => absurd none (by simp)

theorem Reaches.forM_nil (items : List α) (f : α → Recover Unit) :
    Returns (items.forM f) session fun _ next => (!items.isEmpty) = false → next = session := by
  cases items with
  | nil => exact .pure fun _ => rfl
  | cons first rest => exact .imp .unknown fun _ _ _ none => absurd none (by simp)

namespace Candid

theorem idle : Candid false (pure false) session := .pure fun _ => ⟨rfl, rfl⟩

theorem forM (items : List α) (f : α → Recover Unit) :
    Candid false (do items.forM f; return !items.isEmpty) session :=
  .bind (.forM_nil items f) fun _ _ quiet => .pure fun none => ⟨rfl, quiet none⟩

theorem or {step : Recover Bool} (candid : Candid false step session) (before : Bool) :
    Candid before (do return (← step) || before) session := by
  refine .bind candid fun did next quiet => .pure fun none => ?_
  obtain ⟨notDone, notBefore⟩ := Bool.or_eq_false_iff.mp none
  exact ⟨notBefore, (quiet notDone).2⟩

theorem foldlM {items : List α} {f : Bool → α → Recover Bool}
    (each : ∀ before item next, Candid before (f before item) next) :
    Candid before (items.foldlM f before) session := by
  apply Reaches.foldlM fun changed next => changed = false → before = false ∧ next = session
  · exact fun none => ⟨none, rfl⟩
  · intro item _ value next kept
    refine .imp (each value item next) fun changed final quiet none => ?_
    obtain ⟨still, rfl⟩ := quiet none
    exact kept still

theorem trans {first : Recover Bool} {second : Bool → Recover Bool} (one : Candid before first session)
    (two : ∀ changed next, Candid changed (second changed) next) :
    Candid before (first >>= second) session := by
  refine .bind one fun changed next quiet => .imp (two changed next) fun _ final more none => ?_
  obtain ⟨still, rfl⟩ := more none
  exact quiet still

end Candid

/-! Single passes -/

theorem candid_buildBlocks : Candid false (buildBlocks source) session := by
  refine .getContext_bind ?_
  split
  · exact Candid.idle
  · extract_lets cut
    split
    · exact .throw_bind trivial
    · exact .bind .unknown fun _ _ _ => .getContext_bind (.bind .unknown fun _ _ _ => .changed)

theorem candid_buildFragments : Candid false (buildFragments source) session := by
  refine .getContext_bind ?_
  split
  · exact Candid.idle
  · refine .bind .unknown fun _ _ _ => .bind .unknown fun _ _ _ => .getContext_bind ?_
    refine .bind .unknown fun _ _ _ => ?_
    extract_lets confines
    split
    · exact .getGraph_bind (.throw_bind trivial)
    · exact .getContext_bind .changed

/-- Every dispatch that is found becomes a switch, so without one there was none. -/
theorem candid_locateSwitches : Candid false (locateSwitches source) session := by
  refine .getContext_bind ?_
  split
  · exact .throw trivial
  · next dispatches _ =>
    cases dispatches with
    | nil => exact ⟨fun _ => ⟨rfl, rfl⟩⟩
    | cons first rest =>
      refine .bind (returns_claimDispatches (first :: rest)) fun _ next ⟨added, isAdded, known⟩ => ?_
      refine .getClaims_bind (.pure fun none => ?_)
      have some : added ≠ [] := fun isEmpty => absurd known.starts (by simp [isEmpty])
      simp [isAdded, some] at none

theorem candid_buildFragmentLoops (fragment : NodeId) :
    Candid false (buildFragmentLoops source fragment) session := by
  refine .getGraph_bind ?_
  split
  · exact .throw trivial
  · split
    · exact .throw trivial
    · exact Candid.forM _ _

theorem candid_buildLoops : Candid false (buildLoops source) session :=
  .getContext_bind (Candid.foldlM fun before fragment _ =>
    (candid_buildFragmentLoops fragment).or before)

theorem candid_buildChainAt (jump constant : NodeId) :
    Candid false (buildChainAt source jump constant) session := by
  refine .getGraph_bind (.getClaims_bind ?_)
  split
  · exact Candid.idle
  · exact .changed

theorem candid_buildChainsFrom (jump : NodeId) (blocks : List NodeId) :
    Candid false (buildChainsFrom source jump blocks) session := by
  induction blocks generalizing jump session with
  | nil => exact Candid.idle
  | cons constant rest ih =>
    refine Candid.trans (candid_buildChainAt jump constant) fun built next => ?_
    simp only [Bool.or_comm built]
    exact (ih constant).or built

theorem candid_buildChains : Candid false (buildChains source) session := by
  unfold buildChains
  split
  · refine .getContext_bind ?_
    split
    · exact Candid.idle
    · exact candid_buildChainsFrom _ _
  · exact Candid.idle

theorem candid_convertSwitchBreaks : Candid false convertSwitchBreaks session := by
  refine .getClaims_bind (Candid.foldlM fun before location next => .getGraph_bind ?_)
  refine Candid.foldlM fun before block next => Candid.or (.getGraph_bind ?_) before
  split
  · exact .changed
  · exact Candid.idle

theorem candid_buildConditionals : Candid false (buildConditionals source) session := by
  refine Candid.trans candid_buildChains fun chained next => ?_
  refine .bind candid_convertSwitchBreaks fun broken middle unbroken => ?_
  refine .getContext_bind (.getClaims_bind ?_)
  extract_lets conditions
  refine .bind (.forM_nil conditions _) fun _ final unbuilt => .getContext_bind ?_
  split
  · exact .throw trivial
  · refine .pure fun none => ?_
    simp only [Bool.or_eq_false_iff] at none
    exact ⟨none.1.1, (unbuilt none.2).trans (unbroken none.1.2).2⟩

theorem candid_insertSwitches : Candid false (insertSwitches source) session := by
  refine .getClaims_bind (.bind .modifyClaims fun _ next isNext => ?_)
  refine .bind (.forM_nil _ _) fun _ final quiet => .pure fun none => ⟨rfl, ?_⟩
  have unclaimed : session.claims.switches = [] := by simpa using none
  rw [quiet none, isNext, ← unclaimed]

theorem candid_buildStaticInits : Candid false (buildStaticInits source) session := by
  unfold buildStaticInits
  split
  · exact .getContext_bind (Candid.forM _ _)
  · exact Candid.idle

end Recovery

/-- A pass that says that it changed nothing leaves the session as it was, whatever session it is: every
node with its edges, its parent and its slots, the lists of nodes, and the claims. -/
theorem eq_of_unchanged {pass : Pass} (standard : pass ∈ Pass.standard) {next : Session}
    (done : (pass.apply source).run session = .ok false next) : next = session := by
  have candid : Candid false (pass.apply source) session := by
    simp only [Pass.standard, List.mem_cons, List.not_mem_nil, or_false] at standard
    rcases standard with rfl | rfl | rfl | rfl | rfl | rfl | rfl
    · exact candid_buildBlocks
    · exact candid_buildFragments
    · exact candid_locateSwitches
    · exact candid_buildLoops
    · exact candid_buildConditionals
    · exact candid_insertSwitches
    · exact candid_buildStaticInits
  exact (candid.run done rfl).2

def lonelyCase : String :=
  "push.v self.v\ndup.v 0\npushi.e 1\ncmp.i.v EQ\nbt [one]\nb [end]\n:[one]\ncall.i f(0)\n:[end]\npopz.v"

theorem eq_of_unchanged_lonelyCase :
    ∃ code next, Assembly.assemble "entry" lonelyCase = .ok code ∧ Pass.branches ∈ Pass.standard ∧
      (Pass.branches.apply ⟨code, .all⟩).run
        (afterPasses ⟨code, .all⟩ [.blocks, .fragments, .switchLocate]) = .ok false next ∧
      next.claims.switches.length = 1 ∧
      next = afterPasses ⟨code, .all⟩ [.blocks, .fragments, .switchLocate] := by
  obtain ⟨code, changed, next, assembled, done, rfl, located⟩ :=
    exists_of_evaluates "entry" lonelyCase (fun code => (Pass.branches.apply ⟨code, .all⟩).run
        (afterPasses ⟨code, .all⟩ [.blocks, .fragments, .switchLocate]))
      (fun _ changed next => changed = false ∧ next.claims.switches.length = 1) (by decide +kernel)
  have standard : Pass.branches ∈ Pass.standard := by simp [Pass.standard]
  exact ⟨code, next, assembled, standard, done, located, eq_of_unchanged standard done⟩

end Structuring
