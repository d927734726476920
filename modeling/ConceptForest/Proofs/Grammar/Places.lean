import ConceptForest.Proofs.Grammar.Cuts
import ConceptForest.Proofs.Grammar.Derivations

/-!
Programs that stand elsewhere.

Where a token stands matters to a program only as the place of its snippets. So the tokens of a text
that stands behind another text spell the program that they spell on their own, with its places
counted on from there.

* `placeBehind_shift` — how places are counted on.
* `tokensOf_shift` — the tokens of a text behind another one.
* `SpellsProgram.relocate` — the program that tokens spell when they are moved.
* `Expression.snippets_relocate` — its snippets are the same ones, moved.
-/

namespace ConceptForest

namespace Text.Position

/-- A place in a text, counted on from the place where the text begins. -/
def shift (origin p : Position) : Position where
  line := origin.line + (p.line - 1)
  column := if p.line = 1 then origin.column + (p.column - 1) else p.column

end Text.Position

namespace Grammar

open ConceptForest.Text (Position)

/-- The token at another place. -/
def Token.relocate (move : Position → Position) (t : Token) : Token :=
  { t with position := move t.position }

/-- The snippet at another place. -/
def Snippet.relocate (move : Position → Position) (s : Snippet) : Snippet :=
  { s with position := move s.position }

mutual

/-- The symbol with its snippets at other places. -/
def Symbol.relocate (move : Position → Position) : Symbol → Symbol
  | .token text => .token text
  | .block symbols => .block (relocateAll move symbols)
  | .snippet s => .snippet (s.relocate move)

/-- The symbols with their snippets at other places. -/
def relocateAll (move : Position → Position) : List Symbol → List Symbol
  | [] => []
  | s :: others => s.relocate move :: relocateAll move others

end

/-- The expression with its snippets at other places. -/
def Expression.relocate (move : Position → Position) : Expression → Expression
  | .statement symbols => .statement (relocateAll move symbols)
  | .command name args => .command name (relocateAll move args)
  | .snippet s => .snippet (s.relocate move)

variable {move : Position → Position} {before front cs : List Char} {os os' : List Occurrence}
  {t : Token} {ts : List Token} {s : Symbol} {symbols : List Symbol} {e : Expression}
  {es : List Expression}

/-! ### Counting on -/

theorem placeBehind_concat (cs : List Char) (c : Char) :
    placeBehind (cs ++ [c]) = (placeBehind cs).advance c :=
  placeBehind_append.symm

theorem shift_advance {origin p : Position} (c : Char) (line : 1 ≤ p.line)
    (column : 1 ≤ p.column) : origin.shift (p.advance c) = (origin.shift p).advance c := by
  unfold Position.advance
  split
  · have next : p.line + 1 ≠ 1 := by omega
    simp only [Position.shift, if_neg next, Position.mk.injEq, and_true]
    omega
  · simp only [Position.shift, Position.mk.injEq, true_and]
    split
    · omega
    · rfl

/-- The places of a text are counted on from the place where it begins. -/
theorem placeBehind_shift :
    placeBehind (before ++ cs) = (placeBehind before).shift (placeBehind cs) := by
  induction cs using List.reverseRecOn with
  | nil => simp [placeBehind, Position.shift]
  | append_singleton cs c ih =>
    rw [← List.append_assoc, placeBehind_concat, placeBehind_concat, ih, shift_advance c]
    · exact Nat.le_add_right 1 _
    · exact Nat.le_add_right 1 _

theorem textOf_append : textOf (os ++ os') = textOf os ++ textOf os' :=
  List.flatMap_append

theorem depthBehind_append {depth : Nat} :
    depthBehind depth (os ++ os') = depthBehind (depthBehind depth os) os' := by
  simp [depthBehind]

theorem tokensOf_append :
    tokensOf before (os ++ os') = tokensOf before os ++ tokensOf (before ++ textOf os) os' := by
  induction os generalizing before with
  | nil => simp [tokensOf, textOf]
  | cons o os ih => simp [tokensOf, textOf_cons, ih]

/-- The tokens of a text that stands behind another one. -/
theorem tokensOf_shift :
    tokensOf (before ++ front) os =
      (tokensOf front os).map (Token.relocate (placeBehind before).shift) := by
  induction os generalizing front with
  | nil => rfl
  | cons o os ih =>
    simp only [tokensOf, List.map_cons, List.append_assoc, ← ih]
    rw [placeBehind_shift]
    rfl

theorem map_lexeme_tokensOf : (tokensOf before os).map Token.lexeme = os.map Occurrence.lexeme := by
  induction os generalizing before with
  | nil => rfl
  | cons o os ih => exact congrArg (o.lexeme :: ·) ih

/-! ### What is spelled elsewhere -/

theorem relocateAll_eq_map : relocateAll move symbols = symbols.map (Symbol.relocate move) := by
  induction symbols with
  | nil => rfl
  | cons s others ih => rw [relocateAll, ih, List.map_cons]

theorem symbol?_relocate : (t.relocate move).symbol? = t.symbol?.map (Symbol.relocate move) := by
  obtain ⟨lexeme, p⟩ := t
  cases lexeme <;> simp [Token.symbol?, Token.relocate, Symbol.relocate, Snippet.relocate]

theorem SpellsSymbols.relocate {room : Nat} (spelled : SpellsSymbols room ts symbols) :
    SpellsSymbols room (ts.map (Token.relocate move)) (relocateAll move symbols) := by
  induction spelled with
  | nil => exact .nil
  | single alone _ ih => exact .single (by rw [symbol?_relocate, alone]; rfl) ih
  | block opens closes some _ _ inside more =>
    rw [List.map_append, List.map_cons, List.map_cons]
    refine .block opens closes ?_ inside more
    simpa [relocateAll_eq_map] using some

theorem SpellsExpression.relocate (spelled : SpellsExpression ts e) :
    SpellsExpression (ts.map (Token.relocate move)) (e.relocate move) := by
  cases spelled with
  | command calls spelled => exact .command calls spelled.relocate
  | snippet alone => exact .snippet alone
  | @statement _ symbols some other spelled =>
    refine .statement ?_ ?_ spelled.relocate
    · simpa [relocateAll_eq_map] using some
    · -- moved or not, a snippet with nothing beside it is one
      intro s alone
      rw [relocateAll_eq_map] at alone
      obtain ⟨symbol, rfl, moved⟩ := List.map_eq_singleton_iff.mp alone
      cases symbol with
      | snippet s => exact other s rfl
      | token | block => cases moved

/-- Tokens that stand elsewhere spell the program that stands elsewhere. -/
theorem SpellsProgram.relocate (spelled : SpellsProgram ts es) :
    SpellsProgram (ts.map (Token.relocate move)) (es.map (Expression.relocate move)) := by
  induction spelled with
  | finish ends => exact .finish ends
  | separator separates _ ih => exact .separator separates ih
  | expression first ends _ ih =>
    rw [List.map_append, List.map_cons, List.map_cons]
    exact .expression first.relocate ends ih

/-! ### The snippets of what stands elsewhere -/

mutual

theorem snippets_relocate : ∀ symbol : Symbol,
    (symbol.relocate move).snippets = symbol.snippets.map (Snippet.relocate move)
  | .token _ => rfl
  | .block symbols => snippetsOfSymbols_relocate symbols
  | .snippet _ => rfl

theorem snippetsOfSymbols_relocate : ∀ symbols : List Symbol,
    snippetsOfSymbols (relocateAll move symbols) =
      (snippetsOfSymbols symbols).map (Snippet.relocate move)
  | [] => rfl
  | symbol :: others => by
    rw [relocateAll, snippetsOfSymbols, snippetsOfSymbols, snippets_relocate symbol,
      snippetsOfSymbols_relocate others, List.map_append]

end

theorem Expression.snippets_relocate (e : Expression) :
    (e.relocate move).snippets = e.snippets.map (Snippet.relocate move) := by
  cases e with
  | statement symbols => exact snippetsOfSymbols_relocate symbols
  | command name args => exact snippetsOfSymbols_relocate args
  | snippet s => rfl

end Grammar

end ConceptForest
