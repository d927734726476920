import ConceptForest.Forest.Build
import ConceptForest.Forest.Lift
import ConceptForest.Proofs.Forest.Edits

/-!
What stays true of the texts of concepts.

A concept has the texts that it was made with, its two identity texts, and those that a user gave
it, each of which takes the place of the ones that are rendered alike. A property of concepts that
says something of their texts only, that holds of all that is made and that no given text takes away
(`OfTexts`) holds of every concept of a forest, whatever is done to it, granted or refused.

* `keeps_create`, `keeps_release`, `keeps_addRepresentation` — so it is for each edit,
* `keeps_buildOne`, `keeps_lift` — for all that is built of an expression, and for lifts.
-/

namespace ConceptForest

open Grammar (Symbol Expression Snippet)

variable {P : Concept → Prop} {f : Forest} {h parent child : Handle} {spec : NewConcept}
  {c : Concept}

/-- A text that a concept is made with was typed, or says what the concept was made of. -/
def Representation.OfMaking (r : Representation) : Prop :=
  r.level = .inputMorphism ∨ r.level = .systemInformation ∧
    ∃ text : String, r.raw = s!"#|Symbol:{text}|#" ∨ r.raw = s!"#|Script:{text}|#"

/-- All texts that the concept is to be made with are texts of its making. -/
def NewConcept.Typed (spec : NewConcept) : Prop :=
  ∀ r ∈ spec.representations, r.OfMaking

/-- The concept with a text that a user gives it. -/
def Concept.givenText (c : Concept) (text : String) : Concept :=
  let r : Representation := ⟨text, .userSupplied⟩
  { c with representations := r :: c.representations.filter (!r.sameText ·) }

/-- The property is one of the texts of a concept, holds of what is made, and stays true of a
concept that is given a text. -/
structure OfTexts (P : Concept → Prop) : Prop where
  alike : ∀ {c d : Concept}, d.kind = c.kind → d.identifier = c.identifier →
    d.representations = c.representations → P c → P d
  made : ∀ {spec : NewConcept}, spec.Typed → ∀ h, P (spec.toConcept h)
  given : ∀ {c : Concept}, P c → ∀ text, P (c.givenText text)

/-- All concepts have the property. -/
def Forest.Every (P : Concept → Prop) (f : Forest) : Prop :=
  ∀ h c, f.get? h = some c → P c

/-! ### Changes of a forest -/

namespace Forest.Every

theorem update (every : f.Every P) (h : Handle) {change : Concept → Concept}
    (keeps : ∀ c, P c → P (change c)) : (f.update h change).Every P := by
  intro k c live
  rw [get?_update] at live
  split at live
  · obtain ⟨d, was, rfl⟩ := Option.map_eq_some_iff.mp live
    exact keeps d (every k d was)
  · exact every k c live

theorem push (every : f.Every P) (new : P c) : (f.push c).Every P := by
  intro k d live
  rw [get?_push] at live
  split at live
  · exact Option.some.inj live ▸ new
  · exact every k d live

theorem foldl {α : Type} {step : Forest → α → Forest}
    (keeps : ∀ (g : Forest) a, g.Every P → (step g a).Every P) (as : List α) (every : f.Every P) :
    (as.foldl step f).Every P := by
  induction as generalizing f with
  | nil => exact every
  | cons a as ih => exact ih (keeps f a every)

end Forest.Every

namespace OfTexts

/-- A concept whose texts are left alone keeps the property. -/
theorem update (texts : OfTexts P) (every : f.Every P) (h : Handle) {change : Concept → Concept}
    (kind : ∀ c, (change c).kind = c.kind) (identifier : ∀ c, (change c).identifier = c.identifier)
    (same : ∀ c, (change c).representations = c.representations) : (f.update h change).Every P :=
  every.update h fun c => texts.alike (kind c) (identifier c) (same c)

theorem released (texts : OfTexts P) (every : f.Every P) (doomed : List Handle) :
    (f.released doomed).Every P := by
  refine Forest.Every.foldl (fun g c every => ?_) _ ?_
  · refine Forest.Every.foldl (fun g h every => ?_) _
      (Forest.Every.foldl (fun g h every => ?_) _ every)
    · exact texts.update every h (fun _ => rfl) (fun _ => rfl) fun _ => rfl
    · exact texts.update every h (fun _ => rfl) (fun _ => rfl) fun _ => rfl
  · intro k c live
    rw [Forest.get?_without] at live
    split at live
    · cases live
    · exact every k c live

end OfTexts

/-! ### Edits -/

theorem NewConcept.typed_of_nothing (nothing : spec.representations = []) : spec.Typed := by
  intro r mem
  rw [nothing] at mem
  cases mem

namespace Edit

open Forest (Every)

theorem keeps_change {change : Concept → Concept} (keeps : ∀ c, P c → P (change c)) :
    Keeps (Every P) (Edit.change h change) :=
  .bind .ask fun _ => .bind (.modify fun _ every => every.update h keeps) fun _ => .pure

variable (texts : OfTexts P)

include texts

theorem keeps_unlink : Keeps (Every P) (unlink h) := by
  refine .bind .ask fun c => ?_
  cases c.parent with
  | none => exact .pure
  | some p =>
    exact .bind (.modify fun _ every => every.update p fun _ => texts.alike rfl rfl rfl)
      fun _ => .bind (keeps_change fun _ => texts.alike rfl rfl rfl) fun _ => .pure

theorem keeps_attach {index? : Option Nat} : Keeps (Every P) (attach parent index? child) :=
  .bind (keeps_unlink texts) fun _ =>
    .bind (keeps_change fun _ => texts.alike rfl rfl rfl) fun _ =>
      .bind (keeps_change fun _ => texts.alike rfl rfl rfl) fun _ => .pure

theorem keeps_create (typed : spec.Typed) : Keeps (Every P) (create spec) :=
  .bind .ask fun _ => .bind .get fun _ =>
    .bind (.modify fun _ every => every.push (texts.made typed _)) fun _ =>
      .bind (.forM (fun _ => keeps_attach texts) _) fun _ =>
        .bind (.forM_option (fun _ => keeps_attach texts) _) fun _ => .pure

theorem keeps_insertAt {index : Nat} : Keeps (Every P) (insertAt parent child index) :=
  .bind .ask fun _ => keeps_attach texts

theorem keeps_release : Keeps (Every P) (release h) := by
  intro f every
  cases granted : f.doomed h with
  | error e =>
    have refused : release h f = .error e f :=
      bind_of_error (ask_of_error (Forest.doomed · h) granted)
    rwa [leftBy_of_error refused]
  | ok doomed =>
    rw [leftBy_of_ok (release_of_doomed granted)]
    exact texts.released every doomed

theorem keeps_bind {name : String} {value : Value} : Keeps (Every P) (bind h name value) :=
  .bind (keeps_change fun _ => texts.alike rfl rfl rfl) fun _ => .pure

theorem keeps_bindDefinition {d : Definition} : Keeps (Every P) (bindDefinition h d) :=
  .bind (keeps_change fun _ => texts.alike rfl rfl rfl) fun _ => .pure

theorem keeps_takeDefinition : Keeps (Every P) (takeDefinition h) :=
  .bind (keeps_change fun _ => texts.alike rfl rfl rfl) fun _ => .pure

theorem keeps_addRepresentation {text : String} :
    Keeps (Every P) (addRepresentation h ⟨text, .userSupplied⟩) :=
  .bind (keeps_change fun _ holds => texts.given holds text) fun _ => .pure

theorem keeps_associate {source target : Handle} {kind : AssociationKind} :
    Keeps (Every P) (associate source target kind) := by
  refine .bind .ask fun _ => .bind .ask fun c => ?_
  split
  · exact .pure
  · exact .bind (keeps_change fun _ => texts.alike rfl rfl rfl) fun _ =>
      .bind (keeps_change fun _ => texts.alike rfl rfl rfl) fun _ => .pure

/-! ### Lifts -/

theorem keeps_liftRun {start stop : Nat} : Keeps (Every P) (liftRun h start stop) :=
  .bind .ask fun _ =>
    .bind (keeps_create texts (NewConcept.typed_of_nothing rfl)).adaptExcept fun _ =>
      .bind (keeps_insertAt texts).adaptExcept fun _ => .pure

theorem keeps_liftAll {hs : List Handle} : Keeps (Every P) (liftAll hs) :=
  .bind .ask fun _ =>
    .bind (keeps_create texts (NewConcept.typed_of_nothing rfl)).adaptExcept fun _ =>
      .bind (keeps_insertAt texts).adaptExcept fun _ =>
        .bind (.forM (fun _ => (keeps_associate texts).adaptExcept) _) fun _ => .pure

theorem keeps_lift {m : Match} : Keeps (Every P) (lift m) := by
  refine .bind .ask fun _ => ?_
  split
  · exact keeps_liftRun texts
  · exact .pure
  · exact keeps_liftAll texts

end Edit

/-! ### Buildings -/

namespace Build

open Forest (Every)

theorem typed_tokenConcept {text : String} : (tokenConcept parent text).Typed := by
  intro r mem
  rcases List.mem_cons.mp mem with rfl | mem
  · exact .inl rfl
  · exact List.mem_singleton.mp mem ▸ .inr ⟨rfl, text, .inl rfl⟩

theorem typed_snippetConcept {analyzer : Script.Analyzer} {s : Snippet} :
    (snippetConcept parent analyzer s).Typed := by
  intro r mem
  rcases List.mem_cons.mp mem with rfl | mem
  · exact .inl rfl
  · exact List.mem_singleton.mp mem ▸ .inr ⟨rfl, analyzer.language, .inr rfl⟩

theorem typed_commandConcept {name : String} {args : List Symbol} {tag : Nat} :
    (commandConcept parent name args tag).Typed := by
  intro r mem
  exact List.mem_singleton.mp mem ▸ .inl rfl

variable {registry : Script.Registry}

theorem keeps_buildSnippet (texts : OfTexts P) {s : Snippet} :
    Keeps (Every P) (buildSnippet registry parent s) :=
  .bind .ask fun _ => .bind (Edit.keeps_create texts typed_snippetConcept).adaptExcept fun _ =>
    .bind (Edit.keeps_bindDefinition texts).adaptExcept fun _ => .pure

mutual

theorem keeps_buildSymbol (texts : OfTexts P) (parent : Handle) : (symbol : Symbol) →
    Keeps (Every P) (buildSymbol registry parent symbol)
  | .token _ => (Edit.keeps_create texts typed_tokenConcept).adaptExcept
  | .block symbols =>
      .bind (Edit.keeps_create texts (NewConcept.typed_of_nothing rfl)).adaptExcept
        fun h => .bind (keeps_buildSymbols texts h symbols) fun _ => .pure
  | .snippet _ => keeps_buildSnippet texts

theorem keeps_buildSymbols (texts : OfTexts P) (parent : Handle) : (symbols : List Symbol) →
    Keeps (Every P) (buildSymbols registry parent symbols)
  | [] => .pure
  | symbol :: rest => .bind (keeps_buildSymbol texts parent symbol) fun _ =>
      keeps_buildSymbols texts parent rest

end

theorem keeps_buildExpression (texts : OfTexts P) {e : Expression} :
    Keeps (Every P) (buildExpression registry parent e) := by
  have nothing : Keeps (Every P) (Edit.create (statementConcept parent)) :=
    Edit.keeps_create texts (NewConcept.typed_of_nothing rfl)
  cases e with
  | statement symbols =>
    exact .bind nothing.adaptExcept fun h =>
      .bind (keeps_buildSymbols texts h symbols) fun _ => .pure
  | command name args =>
    exact .bind .get fun _ =>
      .bind (Edit.keeps_create texts typed_commandConcept).adaptExcept fun h =>
        .bind (keeps_buildSymbols texts h args) fun _ => .pure
  | snippet s => exact keeps_buildSnippet texts

theorem keeps_buildOne (texts : OfTexts P) {e : Expression} :
    Keeps (Every P) (Edit.buildOne registry parent e) :=
  .bind Keeps.ask.adaptExcept fun _ => .bind .ask fun _ => keeps_buildExpression texts

end Build

end ConceptForest
