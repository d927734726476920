import ConceptForest.Proofs.Script.Openings
import ConceptForest.Proofs.Script.TokenLayout
import ConceptForest.Script.Stmt.Parser

/-!
An operand that stands alone.

Where an operand is read and no expression goes on behind it, every rule for expressions above it
reads just the operand. The rules are gone up one by one, each asking in vain for what it could go
on with.

* `testList_alone` — the operand, read by the outermost rule.
* `statement_alone` — a statement that is one expression.
* `parse_alone` — a snippet that is one expression.
-/

namespace ConceptForest.Script

open Reader

variable {α : Type} {r : Reader α} {a : α} {ts rest : List Token} {l : Lexeme} {level : Level}
  {item : Reader Expr} {e : Expr}

/-- An operand begins with the lexeme, and with no sign or word in front. -/
def Lexeme.opensOperand : Lexeme → Bool
  | .name text => !isKeyword text
  | .number | .string _ => true
  | .op text => ["(", "[", "\x7b", "..."].contains text
  | _ => false

/-- No expression goes on with the lexeme. -/
def Lexeme.endsExpression : Lexeme → Bool
  | .newline | .endOfInput => true
  | .op text => text == "="
  | _ => false

theorem ne_of_opensOperand {l' : Lexeme} (opens : l.opensOperand = true)
    (other : l'.opensOperand = false) : l ≠ l' := by
  rintro rfl
  cases opens.symm.trans other

theorem ne_of_endsExpression {l' : Lexeme} (ends : l.endsExpression = true)
    (other : l'.endsExpression = false) : l ≠ l' := by
  rintro rfl
  cases ends.symm.trans other

theorem isContent_of_opensOperand (opens : l.opensOperand = true) : l.isContent = true := by
  cases l with
  | newline | indent | dedent | endOfInput => cases opens
  | _ => rfl

theorem precedesOperand_of_opensOperand (opens : l.opensOperand = true) :
    l.precedesOperand = false := by
  refine Bool.eq_false_iff.mpr fun precedes => ?_
  cases l with
  | name text =>
    have reserved : ∀ word ∈ ["lambda", "not", "await"], isKeyword word = true := by decide
    simp [Lexeme.opensOperand, reserved text (List.contains_iff_mem.mp precedes)] at opens
  | op text =>
    have others : ∀ op ∈ ["-", "+", "~", "*"], (Lexeme.op op).opensOperand = false := by decide
    cases opens.symm.trans (others text (List.contains_iff_mem.mp precedes))
  | _ => cases precedes

theorem isAmong_of_opensOperand {ops : List String} (opens : l.opensOperand = true)
    (others : ∀ op ∈ ops, (Lexeme.op op).opensOperand = false) :
    l.isAmong ops = false := by
  cases l with
  | op text =>
    refine Bool.eq_false_iff.mpr fun among => ?_
    cases opens.symm.trans (others text (List.contains_iff_mem.mp among))
  | _ => rfl

theorem isAmong_of_endsExpression {ops : List String} (ends : l.endsExpression = true)
    (others : ∀ op ∈ ops, (Lexeme.op op).endsExpression = false) : l.isAmong ops = false := by
  cases l with
  | op text =>
    refine Bool.eq_false_iff.mpr fun among => ?_
    cases ends.symm.trans (others text (List.contains_iff_mem.mp among))
  | _ => rfl

/-! ### Nothing more -/

section

variable {more : Reader Bool} {between middle : List Token} {as : List α}

theorem many_of_none {round : Reader (Option α)} (declined : round ts = .ok (none, rest)) :
    many round ts = .ok ([], rest) := by
  rw [many, declined]

theorem manyWhile_of_no (no : more ts = .ok (false, rest)) :
    manyWhile more r ts = .ok ([], rest) := by
  rw [manyWhile]
  exact many_of_none (run_bind_of_ok no)

theorem manyWhile_of_declines (declines : Declines more (headLexeme ts)) :
    manyWhile more r ts = .ok ([], ts) :=
  many_of_none (declines.run_choose rfl)

/-- One round, and further ones. -/
theorem manyWhile_of_yes (yes : more ts = .ok (true, between)) (read : r between = .ok (a, middle))
    (further : manyWhile more r middle = .ok (as, rest))
    (shorter : middle.length < ts.length ∨ as = [] ∧ middle = rest) :
    manyWhile more r ts = .ok (a :: as, rest) := by
  have round : (do if ← more then return some (← r) else return none) ts =
      .ok (some a, middle) := (run_bind_of_ok yes).trans (run_bind_of_ok read)
  rw [manyWhile] at further ⊢
  rw [many, round]
  dsimp only
  rcases shorter with shorter | ⟨rfl, rfl⟩
  · rw [if_pos shorter, further]
  · rw [further]
    split <;> rfl

/-- One round, and no more. -/
theorem manyWhile_once (asked : more ts = .ok (true, between)) (read : r between = .ok (a, rest))
    (declines : Declines more (headLexeme rest)) : manyWhile more r ts = .ok ([a], rest) :=
  manyWhile_of_yes asked read (manyWhile_of_declines declines) (.inr ⟨rfl, rfl⟩)

end

theorem oneAndMore_alone {more : Reader Bool} (read : r ts = .ok (a, rest))
    (declines : Declines more (headLexeme rest)) : oneAndMore more r ts = .ok ([a], rest) := by
  rw [oneAndMore, run_bind_of_ok read, run_bind_of_ok (manyWhile_of_declines declines)]
  rfl

/-- An operand between operators, with no operator behind it. -/
theorem operands_alone {more : Reader Bool} (read : item ts = .ok (e, rest))
    (declines : Declines more (headLexeme rest)) :
    (do return Expr.combine (← oneAndMore more item) : Reader Expr) ts = .ok (e, rest) := by
  rw [run_bind_of_ok (oneAndMore_alone read declines)]
  rfl

/-! ### The rules for expressions -/

section

variable (ends : (headLexeme rest).endsExpression = true)

include ends

theorem primary_alone (read : level.atom ts = .ok (e, rest)) :
    primary level ts = .ok (e, rest) := by
  have declined : trailer? level rest = .ok (none, rest) := by
    rw [trailer?, (Declines.eatOp (ne_of_endsExpression ends (by decide))).run_choose rfl,
      (Declines.eatOp (ne_of_endsExpression ends (by decide))).run_choose rfl,
      (Declines.eatOp (ne_of_endsExpression ends (by decide))).run_choose rfl]
    rfl
  rw [primary, run_bind_of_ok read, run_bind_of_ok (many_of_none declined)]
  rfl

omit ends in
theorem eatComparison_declines (ends : l.endsExpression = true) : Declines eatComparison l := by
  intro ts head
  have signs : Declines (eatIf (isOneOf ["<", ">", "==", ">=", "<=", "!="])) l :=
    .eatIf (.isOneOf (isAmong_of_endsExpression ends (by decide)))
  rw [eatComparison, signs.run_choose head,
    (Declines.eatWord (ne_of_endsExpression ends (by decide))).run_choose head,
    run_bind_of_ok ((Declines.isWord (ne_of_endsExpression ends (by decide))) ts head)]
  exact (Declines.eatWord (ne_of_endsExpression ends (by decide))).run_choose head

variable (opens : (headLexeme ts).opensOperand = true)

include opens

theorem factor_alone (read : primary level ts = .ok (e, rest)) :
    factor level ts = .ok (e, rest) := by
  have awaited : awaited level ts = .ok (e, rest) := by
    rw [Script.awaited, (Declines.eatWord (ne_of_opensOperand opens (by decide))).run_choose rfl, read]
  have exponents : manyWhile (eatOp "**") (signedOr level (Script.awaited level)) rest =
      .ok ([], rest) := manyWhile_of_declines (.eatOp (ne_of_endsExpression ends (by decide)))
  rw [factor, signedOr,
    (Declines.eatIf (.isOneOf (isAmong_of_opensOperand opens (by decide)))).run_choose rfl,
    run_bind_of_ok awaited, run_bind_of_ok exponents]
  rfl

theorem arithmetic_alone (read : primary level ts = .ok (e, rest)) :
    arithmetic level ts = .ok (e, rest) := by
  have others : ∀ ops ∈ binaryOperators, ∀ op ∈ ops, (Lexeme.op op).endsExpression = false := by
    decide
  unfold arithmetic
  generalize binaryOperators = operators at others
  induction operators with
  | nil => exact factor_alone ends opens read
  | cons ops operators ih =>
    obtain ⟨first, others⟩ := List.forall_mem_cons.mp others
    exact operands_alone (ih others) (.eatIf (.isOneOf (isAmong_of_endsExpression ends first)))

theorem disjunction_alone (read : primary level ts = .ok (e, rest)) :
    disjunction level ts = .ok (e, rest) := by
  have comparison : comparison level ts = .ok (e, rest) :=
    operands_alone (arithmetic_alone ends opens read) (eatComparison_declines ends)
  have negation : negation level ts = .ok (e, rest) := by
    rw [Script.negation,
      (Declines.eatWord (ne_of_opensOperand opens (by decide))).run_choose rfl, comparison]
  exact operands_alone (operands_alone negation (.eatWord (ne_of_endsExpression ends (by decide))))
    (.eatWord (ne_of_endsExpression ends (by decide)))

theorem conditional_alone (read : primary level ts = .ok (e, rest)) :
    conditional level ts = .ok (e, rest) := by
  rw [conditional, (Declines.isWord (ne_of_opensOperand opens (by decide))).run_choose rfl,
    run_bind_of_ok (disjunction_alone ends opens read),
    (Declines.eatWord (ne_of_endsExpression ends (by decide))).run_choose rfl]
  rfl

theorem testList_alone (read : level.test ts = .ok (e, rest)) :
    testList level ts = .ok (e, rest) := by
  have first : starOr level level.test ts = .ok (e, rest) := by
    rw [starOr, (Declines.eatOp (ne_of_opensOperand opens (by decide))).run_choose rfl, read]
  rw [testList, tupleOf, run_bind_of_ok first,
    (Declines.isOp (ne_of_endsExpression ends (by decide))).run_choose rfl]
  rfl

end

/-- An operand that is an atom, read as a whole expression. -/
theorem test_alone (n : Nat) (opens : (headLexeme ts).opensOperand = true)
    (ends : (headLexeme rest).endsExpression = true)
    (read : plainAtom (.over (nested n)) ts = .ok (e, rest)) :
    (nested (n + 2)).test ts = .ok (e, rest) :=
  conditional_alone ends opens (primary_alone ends read)

/-! ### Atoms -/

theorem plainAtom_name {name : String} {p : Text.Position} (free : isKeyword name = false) :
    plainAtom level (⟨.name name, p⟩ :: ts) = .ok (.name name, ts) := by
  have literal : ["None", "True", "False"].contains name = false := by
    refine Bool.eq_false_iff.mpr fun among => ?_
    have reserved : ∀ word ∈ ["None", "True", "False"], isKeyword word = true := by decide
    cases free.symm.trans (reserved name (List.contains_iff_mem.mp among))
  show (if ["None", "True", "False"].contains name = true then _ else _ : Reader Expr) _ = _
  rw [literal, free]
  rfl

theorem plainAtom_number {p : Text.Position} :
    plainAtom level (⟨.number, p⟩ :: ts) = .ok (.operation [], ts) :=
  rfl

/-! ### The rules for statements -/

section

variable {suite : Suite} (opens : (headLexeme ts).opensOperand = true)

include opens

theorem keyword_of_opensOperand : keyword ts = .ok ("", ts) := by
  rw [keyword_eq]
  cases shown : headLexeme ts with
  | name text =>
    rw [shown] at opens
    simp only [Lexeme.opensOperand, Bool.not_eq_true'] at opens
    simp [Lexeme.keyword, opens]
  | _ => rfl

/-- A statement that begins with an operand is a line of its own. -/
theorem statement_eq_simpleLine : statement suite ts = simpleLine suite.level ts := by
  have notAt : headLexeme ts ≠ .op "@" := ne_of_opensOperand opens (by decide)
  have notIndent : headLexeme ts ≠ .indent := ne_of_opensOperand opens (by decide)
  have notDedent : headLexeme ts ≠ .dedent := ne_of_opensOperand opens (by decide)
  rw [statement, run_bind_of_ok (rfl : peek ts = .ok (headLexeme ts, ts))]
  generalize headLexeme ts = l at notAt notIndent notDedent
  split
  · exact absurd rfl notAt
  · exact absurd rfl notIndent
  · exact absurd rfl notDedent
  · rw [run_bind_of_ok (keyword_of_opensOperand opens)]
    rfl

/-- It is an expression, or begins with one. -/
theorem simpleStatement_eq_expressionStatement :
    simpleStatement level ts = expressionStatement level ts := by
  rw [simpleStatement, run_bind_of_ok (keyword_of_opensOperand opens)]
  rfl

theorem statement_of_opensOperand {statements : List Stmt}
    (read : expressionStatement suite.level ts = .ok (statements, rest))
    (ended : headLexeme rest = .newline) :
    statement suite ts = .ok (statements, rest.drop 1) := by
  have simple : simpleStatement suite.level ts = .ok (statements, rest) :=
    (simpleStatement_eq_expressionStatement opens).trans read
  have declines : Declines (do if ← eatOp ";" then return !(← atLineEnd) else return false)
      (headLexeme rest) :=
    fun ts' head => (Declines.eatOp (by rw [ended]; nofun)).run_choose head
  have lineEnd : expectLineEnd rest = .ok ((), rest.drop 1) := by
    rw [expectLineEnd, run_bind_of_ok (rfl : peek rest = .ok (headLexeme rest, rest)), ended]
    rfl
  rw [statement_eq_simpleLine opens, simpleLine, run_bind_of_ok (oneAndMore_alone simple declines),
    run_bind_of_ok lineEnd]
  simp
  rfl

theorem statement_fails {err : SyntaxError}
    (failed : expressionStatement suite.level ts = .error err) :
    statement suite ts = .error err := by
  have simple : simpleStatement suite.level ts = .error err :=
    (simpleStatement_eq_expressionStatement opens).trans failed
  have first : oneAndMore (do if ← eatOp ";" then return !(← atLineEnd) else return false)
      (simpleStatement suite.level) ts = .error err := run_bind_of_error simple
  rw [statement_eq_simpleLine opens, simpleLine, run_bind_of_error first]

theorem yieldOrTestList_alone (read : level.test ts = .ok (e, rest))
    (ends : (headLexeme rest).endsExpression = true) :
    yieldOrTestList level ts = .ok (e, rest) := by
  rw [yieldOrTestList, (Declines.isWord (ne_of_opensOperand opens (by decide))).run_choose rfl]
  exact testList_alone ends opens read

theorem expressionStatement_alone (read : level.test ts = .ok (e, rest))
    (ended : headLexeme rest = .newline) :
    expressionStatement level ts = (do return [← reading e] : Reader (List Stmt)) rest := by
  have first := yieldOrTestList_alone opens read (by rw [ended]; rfl)
  have augmented : Declines (eatIf (isOneOf augmentedOperators)) (headLexeme rest) :=
    .eatIf (.isOneOf (by rw [ended]; rfl))
  rw [expressionStatement, run_bind_of_ok first,
    (Declines.eatOp (by rw [ended]; nofun)).run_choose rfl, augmented.run_choose rfl,
    (Declines.isOp (by rw [ended]; nofun)).run_choose rfl]

/-- A statement that is one expression. -/
theorem statement_alone (read : suite.level.test ts = .ok (e, rest))
    (ended : headLexeme rest = .newline) (readable : e.isReadable = true) :
    statement suite ts = .ok ([.read e], rest.drop 1) := by
  refine statement_of_opensOperand opens ?_ ended
  rw [expressionStatement_alone opens read ended, reading, if_pos readable]
  rfl

/-- A statement that assigns one expression to another. -/
theorem statement_assignment {target value : Expr} {p : Text.Position} {us : List Token}
    (read : suite.level.test ts = .ok (target, ⟨.op "=", p⟩ :: us))
    (opens' : (headLexeme us).opensOperand = true) (read' : suite.level.test us = .ok (value, rest))
    (ended : headLexeme rest = .newline)
    (assignable : target.isAssignable = true) (readable : value.isReadable = true) :
    statement suite ts = .ok ([.read value, .assign target], rest.drop 1) := by
  refine statement_of_opensOperand opens ?_ ended
  have first := yieldOrTestList_alone opens read rfl
  have second := yieldOrTestList_alone opens' read' (by rw [ended]; rfl)
  have others : manyWhile (eatOp "=") (yieldOrTestList suite.level) (⟨.op "=", p⟩ :: us) =
      .ok ([value], rest) :=
    manyWhile_once rfl second (.eatOp (by rw [ended]; nofun))
  have augmented : Declines (eatIf (isOneOf augmentedOperators)) (.op "=") :=
    .eatIf (.isOneOf (by decide))
  have equals : isOp "=" (⟨.op "=", p⟩ :: us) = .ok (true, ⟨.op "=", p⟩ :: us) := rfl
  rw [expressionStatement, run_bind_of_ok first,
    (Declines.eatOp (show Lexeme.op "=" ≠ .op ":" by decide)).run_choose rfl,
    augmented.run_choose rfl, run_bind_of_ok equals, if_pos rfl, run_bind_of_ok others]
  simp only [List.getLast?_cons_cons, List.getLast?_singleton, Option.toList_some,
    List.mapM_cons, List.mapM_nil, List.dropLast_cons_cons, List.dropLast_singleton, reading,
    assigning, assignable, readable, if_true]
  rfl

end

/-! ### Whole snippets -/

theorem moduleItem?_eq (content : (headLexeme ts).isContent = true) :
    moduleItem? ts = (do return some (← statement (.withRoom maxNesting)) : Reader _) ts := by
  rw [moduleItem?, run_bind_of_ok (rfl : peek ts = .ok (headLexeme ts, ts))]
  cases shown : headLexeme ts with
  | newline | endOfInput => rw [shown] at content; cases content
  | _ => rfl

theorem moduleItem?_of_statement {statements : List Stmt}
    (content : (headLexeme ts).isContent = true)
    (read : statement (.withRoom maxNesting) ts = .ok (statements, rest)) :
    moduleItem? ts = .ok (some statements, rest) := by
  rw [moduleItem?_eq content, run_bind_of_ok read]
  rfl

theorem cons_of_lexemes {l : Lexeme} {ls : List Lexeme} (written : ts.map Token.lexeme = l :: ls) :
    ∃ p us, ts = ⟨l, p⟩ :: us ∧ us.map Token.lexeme = ls := by
  obtain ⟨t, us, rfl, rfl, others⟩ := List.map_eq_cons_iff.mp written
  exact ⟨t.position, us, rfl, others⟩

/-- What is written in a snippet is not its last token. -/
theorem one_lt_length_of_content {source : String} (lexed : tokens source = .ok ts)
    (content : (headLexeme ts).isContent = true) : 1 < ts.length := by
  obtain ⟨front, p, rfl, -⟩ := (laid_of_tokens lexed).ends
  cases front with
  | nil => cases content
  | cons t front => simp

/-- A snippet that is one expression is accepted if that may be read. -/
theorem parse_alone {source : String} (lexed : tokens source = .ok ts)
    (opens : (headLexeme ts).opensOperand = true)
    (read : (Suite.withRoom maxNesting).level.test ts = .ok (e, rest))
    (ended : rest.map Token.lexeme = [.newline, .endOfInput]) :
    Stmt.parse source =
      if e.isReadable then .ok [.read e] else .error ⟨.notAssignable, headPosition rest⟩ := by
  obtain ⟨p, _, rfl, last⟩ := cons_of_lexemes ended
  obtain ⟨q, _, rfl, nothing⟩ := cons_of_lexemes last
  obtain rfl := List.map_eq_nil_iff.mp nothing
  have content : (headLexeme ts).isContent = true := isContent_of_opensOperand opens
  rw [Stmt.parse, lexed, ok_bind]
  show (many moduleItem? ts >>= _) = _
  rw [many]
  by_cases readable : e.isReadable = true
  · have line : statement (.withRoom maxNesting) ts = .ok ([.read e], [⟨.endOfInput, q⟩]) :=
      statement_alone opens read rfl readable
    have last : many moduleItem? [⟨.endOfInput, q⟩] = .ok ([], [⟨.endOfInput, q⟩]) :=
      many_of_none rfl
    rw [moduleItem?_of_statement content line]
    dsimp only
    have shorter : [(⟨.endOfInput, q⟩ : Token)].length < ts.length :=
      one_lt_length_of_content lexed content
    rw [if_pos shorter, last, if_pos readable]
    rfl
  · have failed := statement_fails opens ((expressionStatement_alone opens read rfl).trans
      (by rw [reading, if_neg readable]; rfl))
    rw [moduleItem?_eq content, run_bind_of_error failed, if_neg readable]
    rfl

/-- It is accepted only if there is an expression. -/
theorem parse_fails {source : String} (lexed : tokens source = .ok ts)
    (opens : (headLexeme ts).opensOperand = true)
    (refuses : Refuses (Suite.withRoom maxNesting).level.test (headLexeme ts)) :
    ∃ err, Stmt.parse source = .error err := by
  have bare : (headLexeme ts).precedesOperand = false := precedesOperand_of_opensOperand opens
  have first : Refuses (yieldOrTestList (Suite.withRoom maxNesting).level) (headLexeme ts) :=
    .choose (.isWord (ne_of_opensOperand opens (by decide))) (testList_refuses bare refuses)
  have whole : Refuses (expressionStatement (Suite.withRoom maxNesting).level) (headLexeme ts) :=
    first.bind
  obtain ⟨err, failed⟩ := whole ts rfl
  refine ⟨err, ?_⟩
  rw [Stmt.parse, lexed, ok_bind]
  show (many moduleItem? ts >>= _) = _
  rw [many, moduleItem?_eq (isContent_of_opensOperand opens),
    run_bind_of_error (statement_fails opens failed)]
  rfl

end ConceptForest.Script
