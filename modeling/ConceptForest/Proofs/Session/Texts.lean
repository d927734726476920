import ConceptForest.Proofs.Forest.Texts
import ConceptForest.Proofs.Session.Lines

/-!
What stays true of the texts of the concepts of a session.

A command gives a concept a text that a user asks for, makes concepts of what was typed, or leaves
texts alone. So a property of texts that holds of what is made, and that no given text takes away,
holds of all concepts whatever is typed (`Reachable.every`).
-/

namespace ConceptForest

open Grammar (Expression)

namespace Session

variable {P : Concept → Prop} {s : Session} {h : Handle} {call : Invocation}

/-- All concepts of the session have the property. -/
abbrev Every (P : Concept → Prop) (s : Session) : Prop :=
  s.forest.Every P

section Keeps

variable {ε α : Type}

theorem keeps_edit {e : Edit ε α} (keeps : Keeps (Forest.Every P) e) :
    Keeps (Every P) (edit e) := by
  intro s every
  have left : leftBy (edit e) s = { s with forest := leftBy e s.forest } := by
    unfold leftBy edit
    cases e s.forest <;> rfl
  rw [left]
  exact keeps s.forest every

theorem keeps_change {e : Edit ForestError α} (keeps : Keeps (Forest.Every P) e) :
    Keeps (Every P) (change e) :=
  keeps_edit keeps.adaptExcept

theorem keeps_goTo : Keeps (Every P) (goTo h) :=
  .modify fun _ => id

end Keeps

theorem keeps_enter : Keeps (Every P) (enter call) :=
  .bind .ask fun _ => .bind keeps_goTo fun _ => .bind .get fun _ => .pure

theorem keeps_leave : Keeps (Every P) (leave call) := by
  unfold leave
  split
  · exact .throw
  · refine .bind .ask fun c => ?_
    split
    · exact .bind keeps_goTo fun _ => .bind .get fun _ => .pure
    · exact .pure

section

variable (texts : OfTexts P)

include texts

theorem keeps_enterPart : Keeps (Every P) (enterPart call) := by
  refine .bind .ask fun m => ?_
  split
  · exact .bind keeps_goTo fun _ => .bind .get fun _ => .pure
  · split
    · exact .bind .get fun _ => .bind (keeps_edit (Edit.keeps_lift texts).adaptExcept) fun _ =>
        .bind keeps_goTo fun _ => .pure
    · exact .bind .get fun _ => .throw

theorem keeps_bind : Keeps (Every P) (bind call) := by
  unfold bind
  split
  · exact .bind .get fun _ => .bind .ask fun _ => .bind .ask fun _ =>
      .bind (keeps_change (Edit.keeps_bind texts)) fun _ => .bind .get fun _ => .pure
  · exact .throw

theorem keeps_define : Keeps (Every P) (define call) := by
  refine .bind .ask fun _ => .bind (keeps_change (Edit.keeps_takeDefinition texts)) fun d? => ?_
  cases d? with
  | none => exact .throw
  | some d =>
    exact .bind .get fun _ => .bind (keeps_change (Edit.keeps_bindDefinition texts)) fun _ =>
      .bind .get fun _ => .pure

theorem keeps_name : Keeps (Every P) (name call) := by
  unfold name
  split
  · exact .throw
  · exact .bind .get fun _ => .bind (keeps_change (Edit.keeps_addRepresentation texts)) fun _ =>
      .bind .get fun _ => .pure

theorem keeps_represent : Keeps (Every P) (represent call) := by
  refine .bind .ask fun _ => .bind .get fun _ => ?_
  split
  · exact .throw
  · exact .bind (keeps_change (Edit.keeps_associate texts)) fun _ => .bind .get fun _ => .pure

/-- Whatever a command does, and whether or not it is refused, concepts keep the property. -/
theorem keeps_run (command : Command) : Keeps (Every P) (command.run call) := by
  cases command with
  | enter => exact keeps_enter
  | enterPart => exact keeps_enterPart texts
  | leave => exact keeps_leave
  | bind => exact keeps_bind texts
  | lookup => exact .ask
  | define => exact keeps_define texts
  | check => exact .ask
  | outline => exact .ask
  | name => exact keeps_name texts
  | represent => exact keeps_represent texts

theorem keeps_dispatch : Keeps (Every P) (dispatch call) := by
  intro s every
  cases known : s.commands.lookup call.word with
  | none => simpa [leftBy, dispatch, known] using every
  | some command =>
    have left : leftBy (dispatch call) s = leftBy (command.run call) s := by
      simp only [leftBy, dispatch, known]
      cases command.run call s <;> rfl
    rw [left]
    exact keeps_run texts command s every

theorem keeps_take (e : Expression) : Keeps (Every P) (take e) := by
  refine .bind .get fun s => .bind (keeps_edit (Build.keeps_buildOne texts).adaptExcept) fun h => ?_
  cases e with
  | command word args =>
    have execute : Keeps (Every P) (execute h word) :=
      .bind .ask fun _ => .bind (keeps_edit (Edit.keeps_unlink texts)) fun _ =>
        .bind (keeps_dispatch texts) fun _ => .bind (keeps_edit (Edit.keeps_release texts)) fun _ =>
          .bind (.modify fun _ => id) fun _ => .pure
    exact execute.adaptExcept.map
  | statement symbols => exact .pure
  | snippet s => exact .pure

/-- The property holds of all concepts of a session, whatever has been typed before. -/
theorem Reachable.every (reachable : s.Reachable) : s.forest.Every P := by
  induction reachable with
  | new registry settings =>
    have typed : NewConcept.Typed { kind := .root } := NewConcept.typed_of_nothing rfl
    intro h c live
    rw [Session.new, get?_seed] at live
    split at live
    · exact Option.some.inj live ▸ texts.made typed 0
    · cases live
  | withCommands _ _ ih => exact ih
  | take e _ ih => exact keeps_take texts e _ ih
  | takePrompts _ ih => exact ih

end

end Session

end ConceptForest
