import ConceptForest.Proofs.Script.BlankLines
import ConceptForest.Proofs.Script.FreeNames
import ConceptForest.Proofs.Script.Parallel.Fronts

/-!
A snippet with another blank line.

The analysis of a snippet hangs on what its tokens show, and on nothing else: snippets that show the
same have the same names, or the same fault. So a blank line or a comment of its own may be put
behind every line break that is no part of a string or a continued line.

* `parse_of_shown` — snippets that show the same are read alike.
* `freeNames_blankLine` — a blank line changes nothing.
-/

namespace ConceptForest.Script

open Reader

variable {inside between : Nat → Pairing} {ts us : List Token} {source source' : String}

/-! ### Whole snippets -/

section

variable (lines : Lines True inside between)

include lines

/-- The items of a module are read alike, and so is the end of the input. -/
theorem moduleItem?_follows :
    Follows True (between 0) moduleItem? moduleItem? fun _ => between 0 := by
  have same : ∀ ts us, between 0 ts us → headLexeme us = headLexeme ts :=
    fun ts us paired => (lines.front paired).resolve_right fun lax => lax.1 trivial
  have suite : (Suite.withRoom maxNesting).Parallel := .withRoom maxNesting
  have item : Follows True (inside 0) (do return some (← statement (.withRoom maxNesting)))
      (do return some (← statement (.withRoom maxNesting))) fun _ => between 0 :=
    (statement_follows lines (suite lines)).bind fun _ => .pure fun _ _ => id
  have passed : ∀ {l : Lexeme},
      Follows True (At (between 0) l) (statement (.withRoom maxNesting))
        (statement (.withRoom maxNesting)) (fun _ => between 0) →
      Follows True (At (between 0) l) (do return some (← statement (.withRoom maxNesting)))
        (do return some (← statement (.withRoom maxNesting))) fun _ => between 0 :=
    fun follows => follows.bind fun _ => .pure fun _ _ => id
  have onLine : ∀ {l : Lexeme}, l.isContent = true → Within (At (between 0) l) (inside 0) :=
    fun content ts us paired => lines.begin paired.1 (paired.2 ▸ content)
  refine .peek same fun l => ?_
  cases l with
  | endOfInput => exact .pure fun _ _ => And.left
  | newline => exact fun ts us paired => absurd paired.2 (lines.filled paired.1)
  | indent => exact passed (.peekAt same .fail)
  | dedent => exact passed (.peekAt same .fail)
  | _ => exact item.front (onLine rfl)

theorem moduleItems_follow :
    Follows True (between 0) (many moduleItem?) (many moduleItem?) fun _ => between 0 :=
  .many ((moduleItem?_follows lines).weaken (fun _ _ => id) fun found _ _ paired => by
      cases found <;> exact paired)
    (fun paired further => lines.shorter (.inr paired) (.inr further))
    fun _ _ _ _ _ _ further _ => .inr further

end

/-- Tokens that show the same are read alike. -/
theorem parse_of_shown (same : shown (tokens source) = shown (tokens source')) :
    (Stmt.parse source).mapError SyntaxError.fault =
      (Stmt.parse source').mapError SyntaxError.fault := by
  unfold Stmt.parse
  cases lexed : tokens source with
  | error e =>
    rw [lexed] at same
    cases lexed' : tokens source' with
    | error e' =>
      rw [lexed'] at same
      exact congrArg Except.error (Except.error.inj same)
    | ok us => rw [lexed'] at same; cases same
  | ok ts =>
    rw [lexed] at same
    cases lexed' : tokens source' with
    | error e' => rw [lexed'] at same; cases same
    | ok us =>
      rw [lexed'] at same
      have lexemes : ts.map Token.lexeme = us.map Token.lexeme := Except.ok.inj same
      obtain ⟨front, p, rfl, -⟩ := (laid_of_tokens lexed).ends
      obtain ⟨front', p', rfl, -⟩ := (laid_of_tokens lexed').ends
      rw [List.map_append, List.map_append] at lexemes
      have lines : Lines True (OnLine [⟨.endOfInput, p⟩] [⟨.endOfInput, p'⟩])
          (AtLine [⟨.endOfInput, p⟩] [⟨.endOfInput, p'⟩]) := lines_of_fronts rfl (.inl rfl)
      obtain ⟨reads, fails⟩ := moduleItems_follow lines _ _
        ⟨⟨front, front', rfl, rfl, (List.append_cancel_right lexemes).symm⟩, laid_of_tokens lexed⟩
      rw [ok_bind, ok_bind]
      show ((many moduleItem? _ : Except _ _) >>= _).mapError _ =
        ((many moduleItem? _ : Except _ _) >>= _).mapError _
      cases read : many moduleItem? (front ++ [⟨.endOfInput, p⟩]) with
      | error e =>
        obtain ⟨e', read', fault⟩ := fails trivial e read
        rw [read']
        exact congrArg Except.error fault.symm
      | ok found =>
        obtain ⟨left, read', -⟩ := reads found.1 found.2 read
        rw [read']
        rfl

theorem freeNames_of_shown (analyzer : Analyzer)
    (same : shown (tokens source) = shown (tokens source')) :
    (analyzer.freeNames source).mapError SyntaxError.fault =
      (analyzer.freeNames source').mapError SyntaxError.fault := by
  rw [Analyzer.freeNames, Analyzer.freeNames, mapError_bind, mapError_bind, parse_of_shown same]

/-! ### A blank line -/

/-- The place is at the start of the snippet, or behind a line break that is neither inside of a
string nor part of a continued line. -/
def AtLineStart (before : List Char) : Prop :=
  before = [] ∨ ∃ front, before = front ++ ['\n'] ∧ leavesOpen front = false

/-- Blank lines and comments mean nothing. -/
theorem freeNames_blankLine (analyzer : Analyzer) {before line : String}
    (place : AtLineStart before.toList) (blank : BlankLine line.toList) (after : String) :
    (analyzer.freeNames (before ++ line ++ after)).mapError SyntaxError.fault =
      (analyzer.freeNames (before ++ after)).mapError SyntaxError.fault := by
  refine freeNames_of_shown analyzer ?_
  rw [tokens_eq, tokens_eq, String.toList_append, String.toList_append, String.toList_append]
  obtain start | ⟨front, written, closed⟩ := place
  · have nothing : leavesOpen [] = false := by rw [leavesOpen]
    rw [start, List.nil_append, List.nil_append]
    exact tokensFrom_blankLine blank nothing
  · have closed : leavesOpen ('\n' :: front) = false := (leavesOpen_plain (by decide)).trans closed
    rw [written]
    simpa using tokensFrom_blankLine blank closed

/-- A comment between the arguments of a call, in a block. -/
theorem freeNames_blankLine_call :
    AtLineStart "def f(a):\n    return g(a,\n".toList ∧ BlankLine "\t # \"b\n".toList ∧
      ((⟨pythonTag, true⟩ : Analyzer).freeNames
        ("def f(a):\n    return g(a,\n" ++ "\t # \"b\n" ++ "  c)\n")).mapError SyntaxError.fault =
      ((⟨pythonTag, true⟩ : Analyzer).freeNames
        ("def f(a):\n    return g(a,\n" ++ "  c)\n")).mapError SyntaxError.fault := by
  have closed : leavesOpen "def f(a):\n    return g(a,".toList = false := by decide +kernel
  have place : AtLineStart "def f(a):\n    return g(a,\n".toList := .inr ⟨_, rfl, closed⟩
  have blank : BlankLine "\t # \"b\n".toList :=
    ⟨['\t', ' '], ['#', ' ', '"', 'b'], rfl, by simp [isLineBlank],
      .inr ⟨[' ', '"', 'b'], rfl, by decide⟩⟩
  exact ⟨place, blank, freeNames_blankLine _ place blank "  c)\n"⟩

end ConceptForest.Script
