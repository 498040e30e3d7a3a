import Structuring.Proofs.Revision

/-! Steps that return.

A step that returns is followed from the session that it starts in to the one that it ends in. Mostly
what is left behind by a step that fails does not matter. Where it does, a condition on it is kept along.
-/

namespace Structuring.Recovery

open Bytecode FlowGraph

variable {α β : Type} {session : Session} {value : α} {failure : Failure} {event : Event}
  {f : α → Recover Unit} {items : List α}

def Session.OnlyGraph (session next : Session) : Prop := next = session.withGraph next.graph

theorem Session.OnlyGraph.of_eq {next : Session} {graph : FlowGraph} (same : next = session.withGraph graph) :
    session.OnlyGraph next := by
  subst same
  rfl

theorem Session.OnlyGraph.trans {middle next : Session} (first : session.OnlyGraph middle)
    (second : middle.OnlyGraph next) : session.OnlyGraph next := by
  unfold OnlyGraph at *
  rw [first] at second
  exact second

/-- What holds after a step that returns, and of what is left behind if it fails instead. -/
structure Reaches (fails : Session → Prop) (step : Recover α) (session : Session)
    (post : α → Session → Prop) : Prop where
  ends : Ends step session post fun _ next => fails next

/-- What holds after a step if it returns. -/
abbrev Returns (step : Recover α) (session : Session) (post : α → Session → Prop) : Prop :=
  Reaches (fun _ => True) step session post

abbrev Succeeds (step : Recover α) (session : Session) (post : α → Session → Prop) : Prop :=
  Reaches (fun _ => False) step session post

namespace Reaches

variable {fails : Session → Prop} {step : Recover α} {rest : α → Recover β} {post other : α → Session → Prop}
  {last : β → Session → Prop}

theorem run (reaches : Reaches fails step session post) {next : Session}
    (done : step.run session = .ok value next) : post value next := by
  have ends := reaches.ends
  unfold Ends at ends
  rwa [done] at ends

theorem imp (reaches : Reaches fails step session post)
    (weaker : ∀ value next, post value next → other value next) : Reaches fails step session other :=
  ⟨reaches.ends.imp weaker fun _ _ => id⟩

theorem relax {weak : Session → Prop} (reaches : Reaches fails step session post)
    (weaker : ∀ next, fails next → weak next) : Reaches weak step session post :=
  ⟨reaches.ends.imp (fun _ _ => id) fun _ => weaker⟩

theorem returns (reaches : Reaches fails step session post) : Returns step session post :=
  reaches.relax fun _ _ => trivial

/-- What holds of a step if it returns holds of it beside what it reaches. -/
theorem and_returns (one : Reaches fails step session post) (two : Returns step session other) :
    Reaches fails step session fun value next => post value next ∧ other value next := by
  obtain ⟨ends⟩ := one
  have also := two.ends
  constructor
  unfold Ends at *
  cases result : step.run session with
  | ok value next =>
    rw [result] at ends also
    exact ⟨ends, also⟩
  | error failure next => rwa [result] at ends

theorem and (one : Reaches fails step session post) (two : Reaches fails step session other) :
    Reaches fails step session fun value next => post value next ∧ other value next :=
  one.and_returns two.returns

theorem pure (holds : post value session) :
    Reaches fails (Pure.pure value) session post := ⟨holds⟩

theorem throw (allowed : fails session) :
    Reaches fails (MonadExcept.throw failure) session post := ⟨allowed⟩

theorem throw_bind (allowed : fails session) :
    Reaches fails (MonadExcept.throw failure >>= rest) session last := ⟨allowed⟩

theorem bind (first : Reaches fails step session post)
    (second : ∀ value next, post value next → Reaches fails (rest value) next last) :
    Reaches fails (step >>= rest) session last :=
  ⟨ends_bind.mpr (first.ends.imp (fun value next holds => (second value next holds).ends) fun _ _ => id)⟩

theorem getGraph_bind {rest : FlowGraph → Recover β}
    (second : Reaches fails (rest session.graph) session last) :
    Reaches fails (getGraph >>= rest) session last := ⟨second.ends⟩

theorem getContext_bind {rest : Context → Recover β}
    (second : Reaches fails (rest session.context) session last) :
    Reaches fails (getContext >>= rest) session last := ⟨second.ends⟩

theorem getClaims_bind {rest : Claims → Recover β}
    (second : Reaches fails (rest session.claims) session last) :
    Reaches fails (getClaims >>= rest) session last := ⟨second.ends⟩

theorem tell_bind {rest : Unit → Recover β}
    (second : ∀ next, next.context = session.context → next.claims = session.claims →
      Reaches fails (rest ()) next last) :
    Reaches fails (Recovery.tell event >>= rest) session last :=
  ⟨(second { session with log := session.log.push event } rfl rfl).ends⟩

theorem modifyGraph {f : FlowGraph → FlowGraph} :
    Reaches fails (Recovery.modifyGraph f) session fun _ next =>
      next = session.withGraph (f session.graph) := ⟨rfl⟩

theorem modifyContext {f : Context → Context} :
    Reaches fails (Recovery.modifyContext f) session fun _ next =>
      next = ⟨f session.context, session.claims, session.log⟩ := ⟨rfl⟩

theorem modifyClaims {f : Claims → Claims} :
    Reaches fails (Recovery.modifyClaims f) session fun _ next =>
      next = { session with claims := f session.claims } := ⟨rfl⟩

theorem modifyGraph_bind {f : FlowGraph → FlowGraph} {rest : Unit → Recover β}
    (second : ∀ next, next = session.withGraph (f session.graph) →
      next.graph = f session.graph → Reaches fails (rest ()) next last) :
    Reaches fails (Recovery.modifyGraph f >>= rest) session last := ⟨(second _ rfl rfl).ends⟩

theorem addNode_bind {kind : Kind} {start stop : Nat} {parent : Option NodeId} {rest : NodeId → Recover β}
    (second : ∀ next, next = session.withGraph (session.graph.addNode kind start stop parent) →
      next.graph = session.graph.addNode kind start stop parent →
      Reaches fails (rest session.graph.size) next last) :
    Reaches fails (addNode kind start stop parent >>= rest) session last :=
  ⟨(second _ rfl rfl).ends⟩

theorem forM (keeps : Session → Prop) (start : keeps session)
    (each : ∀ item ∈ items, ∀ next, keeps next → Reaches fails (f item) next fun _ final => keeps final) :
    Reaches fails (items.forM f) session fun _ final => keeps final := by
  induction items generalizing session with
  | nil => exact .pure start
  | cons first rest ih =>
    refine .bind (each first (.head _) session start) fun _ next kept => ?_
    exact ih kept fun item member => each item (.tail _ member)

theorem forM_append {first second : List α} {post : Session → Prop}
    (reaches : Reaches fails (first.forM f) session fun _ middle =>
      Reaches fails (second.forM f) middle fun _ next => post next) :
    Reaches fails ((first ++ second).forM f) session fun _ next => post next := by
  have split : (first ++ second).forM f = first.forM f >>= fun _ => second.forM f := List.forM_append
  rw [split]
  exact .bind reaches fun _ _ onward => onward

/-- Rounds that make progress: what holds of the items done so far holds of all in the end. -/
theorem forM_done (keeps : List α → Session → Prop) (start : keeps [] session)
    (each : ∀ done item rest, items = done ++ item :: rest → ∀ next, keeps done next →
      Reaches fails (f item) next fun _ final => keeps (done ++ [item]) final) :
    Reaches fails (items.forM f) session fun _ final => keeps items final := by
  suffices onward : ∀ (done rest : List α) (next : Session), items = done ++ rest → keeps done next →
      Reaches fails (rest.forM f) next fun _ final => keeps items final from
    onward [] items session rfl start
  intro done rest
  induction rest generalizing done with
  | nil =>
    intro next same kept
    rw [List.append_nil] at same
    exact .pure (same ▸ kept)
  | cons item rest ih =>
    intro next same kept
    refine .bind (each done item rest same next kept) fun _ final more => ?_
    exact ih (done ++ [item]) final (by rw [same, List.append_cons]) more

theorem foldlM {f : β → α → Recover β} {init : β} (keeps : β → Session → Prop) (start : keeps init session)
    (each : ∀ item ∈ items, ∀ value next, keeps value next → Reaches fails (f value item) next keeps) :
    Reaches fails (items.foldlM f init) session keeps := by
  induction items generalizing session init with
  | nil => exact .pure start
  | cons first rest ih =>
    rw [List.foldlM_cons]
    refine .bind (each first (.head _) init session start) fun value next kept => ?_
    exact ih kept fun item member => each item (.tail _ member)

theorem ok (reaches : Succeeds step session post) :
    ∃ value next, step.run session = .ok value next ∧ post value next := by
  have ends := reaches.ends
  unfold Ends at ends
  cases result : step.run session with
  | ok value next =>
    rw [result] at ends
    exact ⟨value, next, rfl, ends⟩
  | error failure next =>
    rw [result] at ends
    exact ends.elim

theorem of_ok {next : Session} (done : step.run session = .ok value next)
    (holds : post value next) : Reaches fails step session post := by
  constructor
  unfold Ends
  rwa [done]

theorem of_revises {rights : Rights} (revises : Revises rights step session post) (sound : session.Sound) :
    Returns step session fun value next => next.Sound ∧ Edits rights session next ∧ post value next :=
  ⟨(revises.ends sound).imp (fun _ _ ends => ⟨ends.1.sound sound, ends⟩) fun _ _ _ => trivial⟩

end Reaches

theorem returns_announce {f : Context → Context}
    (same : ∀ context, (f context).graph = context.graph) {good : FlowGraph → Prop}
    (holds : good session.graph) :
    Returns (do tell event; modifyContext f) session fun _ next => good next.graph := by
  refine .tell_bind fun told isTold _ => .imp .modifyContext fun _ next isNext => ?_
  rw [isNext]
  show good (f told.context).graph
  rw [same, isTold]
  exact holds

end Structuring.Recovery
