import ConceptForest.Proofs.Grammar.Joining
import ConceptForest.Proofs.Session.Lines

/-!
Lines of input, and one line of all of them.

What is made of an expression does not depend on the places that are recorded in it
(`take_relocate`), and expressions are taken one after the other in whatever lines they come
(`takeAll_append`). So it does not matter to a session how its input is split into lines
(`interpret_join`).
-/

namespace ConceptForest

open ConceptForest.Text (Position)
open Grammar (Symbol Expression Program Snippet IsSeparator placeBehind relocateAll)
open Build (Resolves)

variable {move : Position → Position} {registry : Script.Registry}

/-! ### Building does not look at places -/

mutual

theorem renderSymbol_relocate : ∀ symbol : Symbol,
    renderSymbol (symbol.relocate move) = renderSymbol symbol
  | .token _ => rfl
  | .block symbols => by
    rw [Symbol.relocate, renderSymbol, renderSymbol, renderSymbols_relocate symbols]
  | .snippet _ => rfl

theorem renderSymbols_relocate : ∀ symbols : List Symbol,
    renderSymbols (relocateAll move symbols) = renderSymbols symbols
  | [] => rfl
  | symbol :: others => by
    rw [relocateAll, renderSymbols, renderSymbols, renderSymbol_relocate symbol,
      renderSymbols_relocate others]

end

namespace Build

theorem checkSnippets_relocate (snippets : List Snippet) :
    checkSnippets registry (snippets.map (Snippet.relocate move)) =
      checkSnippets registry snippets := by
  induction snippets with
  | nil => rfl
  | cons s others ih =>
    rw [List.map_cons, checkSnippets, checkSnippets, ih]
    rfl

/-- Whether there are analyzers for the snippets of expressions does not depend on their places. -/
theorem resolves_relocate {es : List Expression} :
    Resolves registry ((es.map (Expression.relocate move)).flatMap Expression.snippets) ↔
      Resolves registry (es.flatMap Expression.snippets) := by
  have moved : (es.map (Expression.relocate move)).flatMap Expression.snippets =
      (es.flatMap Expression.snippets).map (Snippet.relocate move) := by
    simp only [List.flatMap_map, List.map_flatMap, Expression.snippets_relocate]
  rw [moved, ← checkSnippets_iff, ← checkSnippets_iff, checkSnippets_relocate]

mutual

theorem buildSymbol_relocate : ∀ (parent : Handle) (symbol : Symbol),
    buildSymbol registry parent (symbol.relocate move) = buildSymbol registry parent symbol
  | _, .token _ => rfl
  | parent, .block symbols => by
    have inside : ∀ h, buildSymbols registry h (relocateAll move symbols) =
        buildSymbols registry h symbols := (buildSymbols_relocate · symbols)
    simp only [Symbol.relocate, buildSymbol, inside]
  | _, .snippet _ => rfl

theorem buildSymbols_relocate : ∀ (parent : Handle) (symbols : List Symbol),
    buildSymbols registry parent (relocateAll move symbols) = buildSymbols registry parent symbols
  | _, [] => rfl
  | parent, symbol :: others => by
    rw [relocateAll, buildSymbols, buildSymbols, buildSymbol_relocate parent symbol,
      buildSymbols_relocate parent others]

end

/-- What is built of an expression does not depend on the places in it. -/
theorem buildExpression_relocate (parent : Handle) (e : Expression) :
    buildExpression registry parent (e.relocate move) = buildExpression registry parent e := by
  cases e with
  | statement symbols => simp only [Expression.relocate, buildExpression, buildSymbols_relocate]
  | command name args =>
    simp only [Expression.relocate, buildExpression, buildSymbols_relocate, commandConcept,
      renderCommand, renderSymbols_relocate]
  | snippet s => rfl

end Build

theorem Edit.buildOne_relocate (parent : Handle) (e : Expression) :
    Edit.buildOne registry parent (e.relocate move) = Edit.buildOne registry parent e := by
  simp only [Edit.buildOne, Grammar.Expression.snippets_relocate, Build.checkSnippets_relocate,
    Build.buildExpression_relocate]

namespace Session

variable {s t u : Session} {es es' : List Expression} {outcomes others : List Outcome}

/-! ### Taking expressions -/

/-- Taking an expression does not depend on the places in it. -/
theorem take_relocate (e : Expression) : take (e.relocate move) = take e := by
  simp only [take, Edit.buildOne_relocate]
  cases e with
  | statement | command | snippet => rfl

theorem takeAll_relocate : takeAll (es.map (Expression.relocate move)) = takeAll es := by
  induction es with
  | nil => rfl
  | cons e es ih => rw [List.map_cons, takeAll, takeAll, take_relocate, ih]

/-- Expressions are taken one after the other. -/
theorem takeAll_append (first : takeAll es s = .ok outcomes t)
    (second : takeAll es' t = .ok others u) :
    takeAll (es ++ es') s = .ok (outcomes ++ others) u := by
  induction es generalizing s outcomes with
  | nil =>
    obtain ⟨⟩ : EStateM.Result.ok [] s = .ok outcomes t := first
    exact second
  | cons e es ih =>
    obtain ⟨outcome?, v, took, rest⟩ := exists_of_bind_eq_ok first
    obtain ⟨more, w, rest, done⟩ := exists_of_bind_eq_ok rest
    obtain ⟨⟩ : EStateM.Result.ok (outcome?.toList ++ more) w = .ok outcomes t := done
    rw [List.append_assoc]
    exact (bind_of_ok took).trans (bind_of_ok (ih rest))

/-! ### Lines -/

/-- How input is split into lines does not matter.

Two texts that are accepted are accepted with a separator between them, as the expressions of the
first and then those of the second, whose places are counted on from behind the separator. And a
session that has analyzers for their snippets is the same after the joined text as after both of
them, with the same outcomes. -/
theorem interpret_join {a b : String} {mark : Char} {first second : Program}
    (separates : IsSeparator mark) (parsed : Program.parse a = .ok first)
    (parsed' : Program.parse b = .ok second) :
    Program.parse (a ++ mark.toString ++ b) = .ok ⟨first.expressions ++
        second.expressions.map (Expression.relocate (placeBehind (a.toList ++ [mark])).shift)⟩ ∧
      ∀ s : Session, s.Reachable → Resolves s.registry (first.snippets ++ second.snippets) →
        ∃ t u outcomes others, s.interpret a = (t, .ok outcomes) ∧
          t.interpret b = (u, .ok others) ∧
            s.interpret (a ++ mark.toString ++ b) = (u, .ok (outcomes ++ others)) := by
  have joined := Grammar.parse_join separates parsed parsed'
  refine ⟨joined, ?_⟩
  intro s reachable resolves
  obtain ⟨known, known'⟩ := Build.resolves_append.mp resolves
  obtain ⟨outcomes, t, took, taken, -⟩ :=
    takeAll_of_resolves reachable.atRest.1 first.expressions known
  have known_after : Resolves t.registry second.snippets := taken.registry_eq ▸ known'
  obtain ⟨others, u, took', -, -⟩ :=
    takeAll_of_resolves taken.rest second.expressions known_after
  have known_joined : Resolves s.registry (Program.snippets ⟨first.expressions ++
      second.expressions.map (Expression.relocate (placeBehind (a.toList ++ [mark])).shift)⟩) := by
    rw [Program.snippets, List.flatMap_append]
    exact Build.resolves_append.mpr ⟨known, Build.resolves_relocate.mpr known'⟩
  exact ⟨t, u, outcomes, others, interpret_of_takeAll parsed known took,
    interpret_of_takeAll parsed' known_after took',
    interpret_of_takeAll joined known_joined (takeAll_append took (takeAll_relocate.symm ▸ took'))⟩

/-- The line break in the block separates nothing, and the one behind it does. -/
theorem interpret_join_block : ∃ t u outcomes others,
    (Session.new (.withPython false) {}).interpret "a [b\nc]" = (t, .ok outcomes) ∧
      t.interpret "```python x```" = (u, .ok others) ∧
        (Session.new (.withPython false) {}).interpret "a [b\nc]\n```python x```" =
          (u, .ok (outcomes ++ others)) := by
  have parsed : Program.parse "a [b\nc]" =
      .ok ⟨[.statement [.token "a", .block [.token "b", .token "c"]]]⟩ := by with_unfolding_all rfl
  have parsed' : Program.parse "```python x```" =
      .ok ⟨[.snippet ⟨some "python", "x", ⟨1, 1⟩⟩]⟩ := by with_unfolding_all rfl
  have resolves : Resolves (.withPython false) [⟨some "python", "x", ⟨1, 1⟩⟩] := by
    intro s mem
    obtain rfl := List.mem_singleton.mp mem
    exact ⟨_, rfl⟩
  exact (interpret_join (.inl rfl) parsed parsed').2 _ (.new (.withPython false) {}) resolves

end Session

end ConceptForest
