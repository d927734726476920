import ConceptForest.Proofs.Script.Parser.Agrees
import ConceptForest.Proofs.Script.TokenLayout
import ConceptForest.Script.Parser.Expressions

/-!
The rules for expressions of a parser agree with the readers.

There is one lemma for each rule of the grammar, in the order of the rules. What a rule comes back to
agrees with what the level of its reader comes back to (`SameLevel`): the rules that open a nesting
level anywhere, those that stand on the same level only where a token has been passed over before. So
neither grammar ever meets the check that ends its recursion.
-/

namespace ConceptForest.Script.Parser

variable {n k j : Nat} {again : Body → Rule Expr} {level : Level} {front : List Token → Prop}
  {plain item : Rule Expr} {plain' item' : Reader Expr}

/-- With room for `n` more nesting levels and `k` tokens left, what the rules come back to agrees with
what the level comes back to. -/
structure SameLevel (n k : Nat) (again : Body → Rule Expr) (level : Level) : Prop where
  test : Agrees n k Anywhere (Parser.test again) level.test
  negated : Agrees n k Anywhere (Parser.negated again) level.negated
  signed : Agrees n k Anywhere (Parser.signed again) level.signed
  atom : Agrees n k Anywhere (Parser.atom again) level.atom
  disjunction : Agrees n (k - 1) Anywhere (again .disjunction) (level.again .disjunction)
  arithmetic : Agrees n (k - 1) Anywhere (again .arithmetic) (level.again .arithmetic)

theorem SameLevel.mono (same : SameLevel n k again level) (less : j ≤ k) :
    SameLevel n j again level where
  test := same.test.mono less
  negated := same.negated.mono less
  signed := same.signed.mono less
  atom := same.atom.mono less
  disjunction := same.disjunction.mono (Nat.sub_le_sub_right less 1)
  arithmetic := same.arithmetic.mono (Nat.sub_le_sub_right less 1)

/-! ### Lists of expressions -/

theorem namedTest_agrees (same : SameLevel n k again level) :
    Agrees n k front (namedTest again) (Script.namedTest level) := by
  refine .peek fun l => ?_
  cases l with
  | name text =>
    refine .peekSecond fun second scopes => .either (fun bound => ?_) fun _ => (same.test scopes).under
    refine Agrees.skipTwo ?_ ?_ ((same.test.mono (by omega)).bind fun _ => .pure) scopes
    · rintro us ⟨⟨-, first⟩, -⟩ last
      cases first.symm.trans last
    · rintro us ⟨-, shown⟩ last
      simp only [Bool.and_eq_true, beq_iff_eq] at bound
      cases bound.2.symm.trans (shown.symm.trans last)
  | _ => exact same.test.under

theorem starOr_agrees (same : SameLevel n k again level) (agrees : Agrees n k Anywhere plain plain') :
    Agrees n k front (starOr again plain) (Script.starOr level plain') :=
  .eat (isOp_asks "*") rfl (same.arithmetic.bind fun _ => .pure) agrees.under

theorem tupleOf_agrees (agrees : Agrees n k Anywhere item item') :
    Agrees n k front (tupleOf item) (Script.tupleOf item') := by
  refine agrees.under.bind fun _ => .choose .isOp ?_ .pure
  exact (Agrees.manyWhile (.choose .eatOp .startsExpression .pure) agrees).bind fun _ => .pure

theorem testList_agrees (same : SameLevel n k again level) :
    Agrees n k front (testList again) (Script.testList level) :=
  tupleOf_agrees (starOr_agrees same same.test)

theorem starTarget_agrees (same : SameLevel n k again level)
    (whole : Agrees n k Anywhere (again .arithmetic) (level.again .arithmetic)) :
    Agrees n k front (starTarget again) (Script.starOr level (level.again .arithmetic)) :=
  starOr_agrees same whole

theorem targetList_agrees (same : SameLevel n k again level)
    (whole : Agrees n k Anywhere (again .arithmetic) (level.again .arithmetic)) :
    Agrees n k front (targetList again) (Script.targetList level) :=
  tupleOf_agrees (starTarget_agrees same whole)

theorem yieldExpr_agrees (same : SameLevel n k again level)
    (stands : ∀ us, front us → headLexeme us = .name "yield") :
    Agrees n k front (yieldExpr again) (Script.yieldExpr level) := by
  have same := same.mono (Nat.sub_le k 1)
  refine .skip (fun us here last => by cases (stands us here).symm.trans last) <| .choose .eatWord
    (same.test.bind fun _ => .pure) (.choose .startsExpression ?_ .pure)
  exact (testList_agrees same).bind fun _ => .pure

theorem yieldOrTestList_agrees (same : SameLevel n k again level) :
    Agrees n k front (yieldOrTestList again) (Script.yieldOrTestList level) :=
  .atWord (yieldExpr_agrees same fun _ => And.right) (testList_agrees same)

/-! ### Comprehensions, arguments and subscripts -/

theorem atGenerator_agrees : Agrees n k front atGenerator Script.atGenerator :=
  .choose .isWord .pure (.choose .isWord (.peekSecond fun _ => .pure) .pure)

theorem generator_agrees (same : SameLevel n k again level) :
    Agrees n k front (generator again) (Script.generator level) := by
  refine Agrees.eatWord.bind fun _ => Agrees.expectWord.past
    (Reads.expectWord.mono fun _ read ⟨t, one, _⟩ => one ▸ List.cons_ne_nil t []) fun _ => ?_
  refine (targetList_agrees (same.mono (Nat.sub_le k 1)) same.arithmetic).bind fun _ =>
    Agrees.expectWord.bind fun _ => same.disjunction.bind fun _ => ?_
  exact (Agrees.manyWhile .eatWord same.disjunction).bind fun _ => .pure

theorem comprehensionOf_agrees (same : SameLevel n k again level) (elements : List Expr) :
    Agrees n k front (comprehensionOf again elements) (Script.comprehensionOf level elements) :=
  (generator_agrees same).bind fun _ =>
    (Agrees.manyWhile atGenerator_agrees (generator_agrees same)).bind fun _ => .pure

theorem argument_agrees (same : SameLevel n k again level) :
    Agrees n k front (argument again) (Script.argument level) := by
  refine .choose .eatOneOf same.test (.peek fun l => ?_)
  have value : ∀ {front}, Agrees n k front
      (do
        let value ← namedTest again
        if ← atGenerator then comprehensionOf again [value] else return value)
      (do
        let value ← Script.namedTest level
        if ← Script.atGenerator then Script.comprehensionOf level [value] else return value) :=
    (namedTest_agrees same).bind fun value => .choose atGenerator_agrees
      (comprehensionOf_agrees same [value]) .pure
  -- which of the two is done is told by the same question, put to the same two lexemes
  cases l with
  | name text =>
    refine .peekSecond fun second scopes => .either (fun bound => ?_) fun _ => value scopes
    refine Agrees.skipTwo ?_ ?_ (same.test.mono (by omega)) scopes
    · rintro us ⟨⟨-, first⟩, -⟩ last
      cases first.symm.trans last
    · rintro us ⟨-, shown⟩ last
      simp only [Bool.and_eq_true, beq_iff_eq] at bound
      cases bound.2.symm.trans (shown.symm.trans last)
  | _ => exact .peekSecond fun _ => value

theorem arguments_agrees (same : SameLevel n k again level) :
    Agrees n k front (arguments again) (Script.arguments level) :=
  Agrees.isOp.bind fun _ => .join
    (fun _ _ more => .either (.nothing more)
      ((Agrees.commaSeparated .isOp (argument_agrees same)).bind more))
    fun _ => Agrees.expectOp.bind fun _ => .pure

theorem subscriptItem_agrees (same : SameLevel n k again level) :
    Agrees n k front (subscriptItem again) (Script.subscriptItem level) := by
  have bound : Agrees n k Anywhere
      (do if ← isOneOf ["]", ","] then return [] else return [← test again])
      (do if ← Reader.isOneOf ["]", ","] then return [] else return [← level.test]) :=
    .choose .isOneOf .pure (same.test.bind fun _ => .pure)
  have index : Agrees n k Anywhere (starOr again (namedTest again))
      (Script.starOr level (Script.namedTest level)) := starOr_agrees same (namedTest_agrees same)
  refine Agrees.isOp.bind fun _ => .join
    (fun _ _ more => .either (.nothing more) (index.single more)) fun lower => ?_
  refine .choose .eatOp ?_ .pure
  refine Agrees.isOp.bind fun _ => .join
    (fun _ _ more => .either (.nothing more) (bound.bind more)) fun upper => ?_
  exact Agrees.eatOp.bind fun _ => .join
    (fun _ _ more => .either (bound.bind more) (.nothing more)) fun _ => .pure

theorem subscripts_agrees (same : SameLevel n k again level) :
    Agrees n k front (subscripts again) (Script.subscripts level) :=
  (Agrees.commaSeparated .isOp (subscriptItem_agrees same)).bind fun _ =>
    Agrees.expectOp.bind fun _ => .pure

/-! ### Operators -/

theorem trailer?_agrees (same : SameLevel n k again level) :
    Agrees n k front (trailer? again) (Script.trailer? level) := by
  refine .choose .eatOp ((arguments_agrees same).bind fun _ => .pure)
    (.choose .eatOp ((subscripts_agrees same).bind fun _ => .pure) (.choose .eatOp ?_ .pure))
  refine .peek fun l => ?_
  cases l with
  | name text => exact .skip (fun us here last => by cases here.2.symm.trans last) .pure
  | _ => exact .unexpected

theorem primary_agrees (same : SameLevel n k again level) :
    Agrees n k front (primary again) (Script.primary level) :=
  same.atom.under.bind fun _ => (Agrees.many (trailer?_agrees same)).bind fun _ => .pure

theorem awaited_agrees (same : SameLevel n k again level) :
    Agrees n k front (awaited again) (Script.awaited level) :=
  .choose .eatWord ((primary_agrees same).bind fun _ => .pure) (primary_agrees same)

theorem signedOr_agrees (same : SameLevel n k again level)
    (agrees : Agrees n k Anywhere plain plain') :
    Agrees n k front (signedOr again plain) (Script.signedOr level plain') :=
  .choose .eatOneOf (same.signed.bind fun _ => .pure) agrees

theorem factor_agrees (same : SameLevel n k again level) :
    Agrees n k front (factor again) (Script.factor level) := by
  refine signedOr_agrees same ((awaited_agrees same).bind fun _ => ?_)
  exact (Agrees.manyWhile .eatOp (signedOr_agrees same (awaited_agrees same))).bind fun _ => .pure

/-- Operands between operators, whatever these are. -/
theorem operands_agree {more : Rule Bool} {more' : Reader Bool}
    (asked : Agrees n k Anywhere more more') (agrees : Agrees n k Anywhere item item') :
    Agrees n k front (do return Expr.combine (← oneAndMore more item))
      (do return Expr.combine (← Reader.oneAndMore more' item')) :=
  (Agrees.oneAndMore asked agrees).bind fun _ => .pure

theorem arithmetic_agrees (same : SameLevel n k again level) :
    Agrees n k front (arithmetic again) (Script.arithmetic level) := by
  unfold arithmetic Script.arithmetic
  induction binaryOperators generalizing front with
  | nil => exact factor_agrees same
  | cons ops others ih => exact operands_agree .eatOneOf ih

theorem eatComparison_agrees : Agrees n k front eatComparison Script.eatComparison := by
  refine .choose .eatOneOf .pure (.choose .eatWord .pure ?_)
  have identity : ∀ {front}, Agrees n k front
      (do if ← eatWord "is" then let _ ← eatWord "not"; return true else return false)
      (do if ← Reader.eatWord "is" then let _ ← Reader.eatWord "not"; return true else return false) :=
    .choose .eatWord (Agrees.eatWord.bind fun _ => .pure) .pure
  refine fun scopes => .ask (isWord_asks "not") fun answer => .peekSecond fun second =>
    .either (fun bound => ?_) fun _ => identity scopes
  simp only [Bool.and_eq_true, beq_iff_eq] at bound
  obtain ⟨rfl, rfl⟩ := bound
  refine Agrees.skipTwo ?_ ?_ .pure scopes
  · rintro us ⟨⟨-, first⟩, -⟩ last
    cases (beq_iff_eq.mp first).symm.trans last
  · rintro us ⟨-, shown⟩ last
    cases shown.symm.trans last

theorem comparison_agrees (same : SameLevel n k again level) :
    Agrees n k front (comparison again) (Script.comparison level) :=
  operands_agree eatComparison_agrees (arithmetic_agrees same)

theorem negation_agrees (same : SameLevel n k again level) :
    Agrees n k front (negation again) (Script.negation level) :=
  .choose .eatWord (same.negated.bind fun _ => .pure) (comparison_agrees same)

theorem conjunction_agrees (same : SameLevel n k again level) :
    Agrees n k front (conjunction again) (Script.conjunction level) :=
  operands_agree .eatWord (negation_agrees same)

theorem disjunction_agrees (same : SameLevel n k again level) :
    Agrees n k front (disjunction again) (Script.disjunction level) :=
  operands_agree .eatWord (conjunction_agrees same)

/-! ### Functions and conditionals -/

theorem annotation_agrees (same : SameLevel n k again level) (annotated : Bool) :
    Agrees n k front ( annotation again annotated) ( Script.annotation level annotated) :=
  .either (.choose .eatOp (same.test.bind fun _ => .pure) .pure) .pure

theorem parameter_agrees (same : SameLevel n k again level) (annotated : Bool) :
    Agrees n k front (parameter again annotated) (Script.parameter level annotated) := by
  refine .choose .eatOp .pure (.choose .eatOneOf (.peek fun l => ?_) ?_)
  · cases l with
    | name text =>
      exact Agrees.expectName.bind fun _ => (annotation_agrees same annotated).bind fun _ => .pure
    | _ => exact .pure
  · refine Agrees.expectName.bind fun _ => (annotation_agrees same annotated).bind fun _ => ?_
    exact Agrees.eatOp.bind fun _ => .join
      (fun _ _ more => .either (same.test.single more) (.nothing more)) fun _ => .pure

theorem parameters_agrees (same : SameLevel n k again level) (close : String) (annotated : Bool) :
    Agrees n k front (parameters again close annotated) (Script.parameters level close annotated) :=
  .choose .isOp .pure (.commaSeparated .isOp (parameter_agrees same annotated))

theorem lambdaExpr_agrees (same : SameLevel n k again level)
    (stands : ∀ us, front us → headLexeme us = .name "lambda") :
    Agrees n k front (lambdaExpr again) (Script.lambdaExpr level) := by
  have same := same.mono (Nat.sub_le k 1)
  exact .skip (fun us here last => by cases (stands us here).symm.trans last) <|
    (parameters_agrees same ":" false).bind fun _ => Agrees.expectOp.bind fun _ =>
      same.test.bind fun _ => .pure

theorem conditional_agrees (same : SameLevel n k again level) :
    Agrees n k front (conditional again) (Script.conditional level) := by
  refine .atWord (lambdaExpr_agrees same fun _ => And.right) ((disjunction_agrees same).bind fun _ =>
    .choose .eatWord ((disjunction_agrees same).bind fun _ => ?_) .pure)
  exact Agrees.expectWord.bind fun _ => same.test.bind fun _ => .pure

/-! ### Atoms -/

theorem item_agrees (same : SameLevel n k again level) :
    Agrees n k front (starOr again (namedTest again)) (Script.starOr level (Script.namedTest level)) :=
  starOr_agrees same (namedTest_agrees same)

theorem sequenceTail_agrees (same : SameLevel n k again level) (first : Expr) (close : String) :
    Agrees n k front (sequenceTail again first close) (Script.sequenceTail level first close) :=
  (Agrees.manyWhile (.choose .eatOp (Agrees.isOp.bind fun _ => .pure) .pure)
    (item_agrees same)).bind fun _ => Agrees.expectOp.bind fun _ => .pure

/-- A comprehension and the mark that closes it. -/
theorem closedComprehension_agrees (same : SameLevel n k again level) (elements : List Expr)
    (close : String) :
    Agrees n k front (do let e ← comprehensionOf again elements; expectOp close; return e)
      (do let e ← Script.comprehensionOf level elements; Reader.expectOp close; return e) :=
  (comprehensionOf_agrees same elements).bind fun _ => Agrees.expectOp.bind fun _ => .pure

theorem parenthesized_agrees (same : SameLevel n k again level) :
    Agrees n k front (parenthesized again) (Script.parenthesized level) := by
  refine .choose .eatOp .pure (.atWord ?_ ?_)
  · exact (yieldExpr_agrees same fun _ => And.right).bind fun _ => Agrees.expectOp.bind fun _ => .pure
  · refine (item_agrees same).bind fun first => .choose atGenerator_agrees
      (closedComprehension_agrees same [first] ")") (.choose .isOp ?_ ?_)
    · exact (sequenceTail_agrees same first ")").bind fun _ => .pure
    · exact Agrees.expectOp.bind fun _ => .pure

theorem bracketed_agrees (same : SameLevel n k again level) :
    Agrees n k front (bracketed again) (Script.bracketed level) :=
  .choose .eatOp .pure ((item_agrees same).bind fun first => .choose atGenerator_agrees
    (closedComprehension_agrees same [first] "]")
    ((sequenceTail_agrees same first "]").bind fun _ => .pure))

theorem braceEntry_agrees (same : SameLevel n k again level) :
    Agrees n k front (braceEntry again) (Script.braceEntry level) :=
  .eat (isOp_asks "**") rfl same.arithmetic ((item_agrees same).bind fun _ =>
    .choose .eatOp (same.test.bind fun _ => .pure) .pure)

theorem braced_agrees (same : SameLevel n k again level) :
    Agrees n k front (braced again) (Script.braced level) := by
  refine .choose .eatOp .pure ((braceEntry_agrees same).bind fun first =>
    .choose atGenerator_agrees (closedComprehension_agrees same [first] "\x7d") ?_)
  exact (Agrees.manyWhile (.choose .eatOp (Agrees.isOp.bind fun _ => .pure) .pure)
    (braceEntry_agrees same)).bind fun _ => Agrees.expectOp.bind fun _ => .pure

/-! ### Replacement fields -/

theorem atLineEnd_eq {p : Parser} (fits : p.Fits n k) :
    atLineEnd p = .ok (endsLine (headLexeme p.rest)) p := by
  rw [atLineEnd_asks.rule]
  show EStateM.Result.ok (endsLine _) p = _
  rw [fits.token?_eq]
  rfl

section

variable {α : Type} {m : Rule α} {r : Reader α} {p : Parser} {ts us : List Token} {a : α}
  {e : SyntaxError}

/-- The parser in front of other tokens. -/
theorem Fits.at (fits : p.Fits n k)
    (ends : ∃ front here, ts = front ++ [⟨.endOfInput, here⟩]) :
    Fits n ts.length { p with tokens := ts, place := 0 } := by
  refine ⟨ends, ?_, fits.room, Nat.le_refl _⟩
  obtain ⟨front, here, rfl⟩ := ends
  simp

theorem elsewhere_of_ok (fits : p.Fits n k)
    (ends : ∃ front here, ts = front ++ [⟨.endOfInput, here⟩])
    (agrees : Agrees n ts.length Anywhere m r) (read : r ts = .ok (a, us)) :
    elsewhere ts m p = .ok (.ok a, endsLine (headLexeme us)) p := by
  have moved := fits.at ends
  obtain ⟨place, -, within, rfl, run⟩ := (agrees p.scopes _ moved rfl trivial).1 a us read
  have tried : attempt m { p with tokens := ts, place := 0 } =
      .ok (.ok a) { p with tokens := ts, place } := by rw [attempt, run]
  have further : Fits n ts.length { p with tokens := ts, place } :=
    moved.onward within (Nat.sub_le ..)
  exact (bind_of_ok (run_get p)).trans <| (bind_of_ok rfl).trans <| (bind_of_ok tried).trans <|
    (bind_of_ok (atLineEnd_eq further)).trans rfl

theorem elsewhere_of_error (fits : p.Fits n k)
    (ends : ∃ front here, ts = front ++ [⟨.endOfInput, here⟩])
    (agrees : Agrees n ts.length Anywhere m r) (failed : r ts = .error e) :
    ∃ complete q, elsewhere ts m p = .ok (.error e, complete) q ∧ q.tokens = p.tokens ∧
      q.depth = p.depth := by
  obtain ⟨q, run, tokens, depth⟩ := (agrees p.scopes _ (fits.at ends) rfl trivial).2 e failed
  have tried : attempt m { p with tokens := ts, place := 0 } = .ok (.error e) q := by
    rw [attempt, run]
  obtain ⟨complete, asked⟩ : ∃ complete, atLineEnd q = .ok complete q := ⟨_, rfl⟩
  refine ⟨complete, { q with tokens := p.tokens, place := p.place }, ?_, rfl, depth⟩
  exact (bind_of_ok (run_get p)).trans <| (bind_of_ok rfl).trans <| (bind_of_ok tried).trans <|
    bind_of_ok asked

end

/-- A field is read from its own tokens, on the same level; the tokens around it are given back. -/
theorem fieldValue_agrees (same : ∀ k, SameLevel n k again level) (here : Text.Position)
    (field : String) :
    Agrees n k front (fieldValue again here field)
      (monadLift (Script.fieldValue level here field) : Reader Expr) := by
  unfold fieldValue Script.fieldValue
  cases lexed : Script.tokens field with
  | error e => exact .throw
  | ok ts =>
    have ends : ∃ front here, ts = front ++ [⟨.endOfInput, here⟩] := by
      obtain ⟨front, here, same, -⟩ := (laid_of_tokens lexed).ends
      exact ⟨front, here, same⟩
    have agrees : Agrees n ts.length Anywhere (testList again) (Script.testList level) :=
      testList_agrees (same _)
    rintro scopes p fits rfl -
    dsimp only
    cases read : Script.testList level ts with
    | error e =>
      obtain ⟨complete, q, run, kept⟩ := elsewhere_of_error fits ends agrees read
      refine ⟨nofun, ?_⟩
      rintro _ ⟨⟩
      exact ⟨q, bind_of_ok run, kept⟩
    | ok found =>
      obtain ⟨value, us⟩ := found
      have run := elsewhere_of_ok fits ends agrees read
      rw [bind_of_ok run]
      dsimp only
      generalize headLexeme us = l
      have fine : Agrees n k Anywhere (pure value)
          (monadLift (Except.ok value : Except SyntaxError Expr) : Reader Expr) := .pure
      have excess : Agrees n k Anywhere (failAt (.excessInField field) here)
          (monadLift (Except.error ⟨.excessInField field, here⟩ : Except SyntaxError Expr) :
            Reader Expr) := .throw
      cases l with
      | newline | endOfInput => exact fine p.scopes p fits rfl trivial
      | _ => exact excess p.scopes p fits rfl trivial

theorem fieldValues_agree (same : ∀ k, SameLevel n k again level) (here : Text.Position)
    (fields : List String) :
    Agrees n k front (fields.mapM (fieldValue again here))
      (monadLift (fields.mapM (Script.fieldValue level here)) : Reader (List Expr)) := by
  have lift_bind : ∀ {α β : Type} (x : Except SyntaxError α) (f : α → Except SyntaxError β),
      (monadLift (x >>= f) : Reader β) = monadLift x >>= fun a => monadLift (f a) := by
    intro α β x f
    cases x <;> rfl
  induction fields generalizing front with
  | nil => exact .pure
  | cons field fields ih =>
    rw [List.mapM_cons, List.mapM_cons, lift_bind]
    refine (fieldValue_agrees same here field).bind fun value => ?_
    rw [lift_bind]
    exact ih.bind fun values => .pure

theorem stringFields?_agrees (same : ∀ k, SameLevel n k again level) (here : Text.Position) :
    Agrees n k front (stringFields? again here) (Script.stringFields? level here) := by
  refine .peek fun l => ?_
  cases l with
  | string fields =>
    exact .skip (fun us here last => by cases here.2.symm.trans last)
      ((fieldValues_agree same here fields).bind fun _ => .pure)
  | _ => exact .pure

theorem plainAtom_agrees (same : ∀ k, SameLevel n k again level) :
    Agrees n k front (plainAtom again) (Script.plainAtom level) := by
  refine .position fun here => .peek fun l => ?_
  have inside : l ≠ .endOfInput → ∀ us, front us ∧ headLexeme us = l →
      headLexeme us ≠ .endOfInput := fun other us shown last => other (shown.2.symm.trans last)
  split
  · exact .skip (inside nofun) (parenthesized_agrees (same _))
  · exact .skip (inside nofun) (bracketed_agrees (same _))
  · exact .skip (inside nofun) (braced_agrees (same _))
  · exact .skip (inside nofun) .pure
  · exact .skip (inside nofun) .pure
  · exact .either (.skip (inside nofun) .pure) (.either .unexpected (.skip (inside nofun) .pure))
  · exact (Agrees.many (stringFields?_agrees same here)).bind fun _ => .pure
  · next name string =>
    -- the reader asks once more what the rule has just asked
    try split
    all_goals first
      | contradiction
      | exact absurd rfl (name _)
      | exact absurd rfl (string _)
      | exact .unexpected

/-! ### The grammar tied to itself -/

/-- The reader that the rule stands beside. -/
def Body.reader (level : Level) : Body → Reader Expr
  | .conditional => Script.conditional level
  | .negation => Script.negation level
  | .factor => Script.factor level
  | .atom => Script.plainAtom level
  | .disjunction => Script.disjunction level
  | .arithmetic => Script.arithmetic level

/-- A level in which the rules that it comes back to are cut off where no token has been passed over
since `us`. -/
def since (inner : Nested) (us : List Token) : Level :=
  { inner with
    again := fun operand rest =>
      if rest.length < us.length then (Level.over inner).again operand rest
      else .error ⟨.invalidSyntax (headLexeme rest).describe, headPosition rest⟩ }

theorem again_disjunction (inner : Nested) (us : List Token) :
    (Level.over inner).again .disjunction us = Script.disjunction (since inner us) us := by
  show Reader.recursive _ _ us = _
  rw [Reader.recursive]
  rfl

theorem again_arithmetic (inner : Nested) (us : List Token) :
    (Level.over inner).again .arithmetic us = Script.arithmetic (since inner us) us := by
  show Reader.recursive _ _ us = _
  rw [Reader.recursive]
  rfl

/-- What the rule `b`, run on `p`, comes back to. -/
def backFrom (p : Parser) (b b' : Body) : Rule Expr := fun q =>
  if Descends q b'.rank p b.rank then body b' q else unexpected q

theorem body_eq (b : Body) (p : Parser) : body b p = bodyOver (backFrom p b) b p := by
  rw [body, recursive]
  rfl

theorem backFrom_eq {p q : Parser} {b b' : Body} (descends : Descends q b'.rank p b.rank) :
    backFrom p b b' q = body b' q :=
  if_pos descends

theorem bodyOver_agrees (b : Body) (same : SameLevel n k again level)
    (all : b = .atom → ∀ k, SameLevel n k again level) :
    Agrees n k front (bodyOver again b) (b.reader level) := by
  cases b with
  | conditional => exact conditional_agrees same
  | negation => exact negation_agrees same
  | factor => exact factor_agrees same
  | atom => exact plainAtom_agrees (all rfl)
  | disjunction => exact disjunction_agrees same
  | arithmetic => exact arithmetic_agrees same

/-- What opens a nesting level agrees with the nested rules, if everything deeper does. -/
theorem sameLevel {operands : Operand → Reader Expr}
    (inner : ∀ m < n, ∀ b : Body, Agrees m k Anywhere (again b) (b.reader (.withRoom m)))
    (disjunction : Agrees n (k - 1) Anywhere (again .disjunction) (operands .disjunction))
    (arithmetic : Agrees n (k - 1) Anywhere (again .arithmetic) (operands .arithmetic)) :
    SameLevel n k again { nested n with again := operands } := by
  cases n with
  | zero => exact ⟨fun _ => .tooDeep, fun _ => .tooDeep, fun _ => .tooDeep, fun _ => .tooDeep,
      disjunction, arithmetic⟩
  | succ m =>
    have below := inner m (Nat.lt_succ_self m)
    exact ⟨fun _ => .deeper (below .conditional _), fun _ => .deeper (below .negation _),
      fun _ => .deeper (below .factor _), fun _ => .deeper (below .atom _), disjunction, arithmetic⟩

/-- Deeper than `p` every rule may be called again. -/
theorem backFrom_agrees {p : Parser} {b : Body} (room : p.room = n)
    (inner : ∀ m < n, ∀ k b, Agrees m k Anywhere (body b) (b.reader (.withRoom m))) :
    ∀ m < n, ∀ b' : Body, Agrees m k Anywhere (backFrom p b b') (b'.reader (.withRoom m)) :=
  fun m less b' => (inner m less k b').congr
    (fun q fits => backFrom_eq (.inl (by rw [fits.room, room]; exact less))) fun _ _ => rfl

/-- What a level comes back to agrees with the rules, if everything deeper does. -/
theorem operands_agree_of (inner : ∀ m < n, ∀ k b, Agrees m k Anywhere (body b) (b.reader (.withRoom m)))
    (k : Nat) :
    Agrees n k Anywhere (body .disjunction) ((Level.withRoom n).again .disjunction) ∧
      Agrees n k Anywhere (body .arithmetic) ((Level.withRoom n).again .arithmetic) := by
  induction k using Nat.strongRecOn with
  | ind k ih =>
    -- where a token has been passed over, neither grammar is cut off
    have cut : ∀ {p : Parser} {b : Body}, p.Fits n k → b.rank = 0 →
        SameLevel n p.left (backFrom p b) (since (nested n) p.rest) := by
      intro p b fits rank
      have less : p.left - 1 < k := by
        have := fits.left
        have := fits.left_pos
        omega
      have shorter : ∀ q : Parser, q.Fits n (p.left - 1) → q.left < p.left := fun q fits' => by
        have := fits'.left
        have := fits.left_pos
        omega
      have further : ∀ {b' : Body} {operand : Operand}, b'.rank = 0 →
          Agrees n (p.left - 1) Anywhere (body b') ((Level.withRoom n).again operand) →
          Agrees n (p.left - 1) Anywhere (backFrom p b b')
            ((since (nested n) p.rest).again operand) := by
        intro b' operand rank' agrees
        refine agrees.congr (fun q fits' => backFrom_eq ?_) fun q fits' => if_pos ?_
        · exact .inr ⟨fits'.room.trans fits.room.symm, .inr ⟨rank'.trans rank.symm, shorter q fits'⟩⟩
        · rw [← left_eq, ← left_eq]
          exact shorter q fits'
      exact sameLevel (backFrom_agrees fits.room inner) (further rfl (ih _ less).1)
        (further rfl (ih _ less).2)
    constructor
    · intro scopes p fits same here
      rw [body_eq, Level.withRoom, again_disjunction]
      exact disjunction_agrees (cut fits rfl) scopes p fits.self same here
    · intro scopes p fits same here
      rw [body_eq, Level.withRoom, again_arithmetic]
      exact arithmetic_agrees (cut fits rfl) scopes p fits.self same here

/-- A rule comes back to what its reader comes back to, if everything deeper agrees: on the same
level where a token has been passed over, and anywhere if the rule has not come down to that
level's operands. -/
theorem sameLevel_withRoom {p : Parser} {b : Body} (fits : p.Fits n k)
    (inner : ∀ m < n, ∀ k b, Agrees m k Anywhere (body b) (b.reader (.withRoom m)))
    (j : Nat) (bound : b.rank = 1 ∨ j ≤ p.left) :
    SameLevel n j (backFrom p b) (.withRoom n) := by
  have again : ∀ {b' : Body}, b'.rank = 0 → ∀ q : Parser, q.Fits n (j - 1) →
      backFrom p b b' q = body b' q := by
    intro b' rank' q fits'
    refine backFrom_eq (.inr ⟨fits'.room.trans fits.room.symm, ?_⟩)
    have := fits'.left
    have := fits'.left_pos
    have : b.rank = 0 ∨ b.rank = 1 := by cases b <;> simp [Body.rank]
    omega
  obtain ⟨disjunction, arithmetic⟩ := operands_agree_of inner (j - 1)
  exact sameLevel (backFrom_agrees fits.room inner)
    (disjunction.congr (again rfl) fun _ _ => rfl) (arithmetic.congr (again rfl) fun _ _ => rfl)

/-- With any room and any number of tokens left, the rules of the grammar of expressions agree with
the readers. -/
theorem body_agrees (n k : Nat) (b : Body) :
    Agrees n k Anywhere (body b) (b.reader (.withRoom n)) := by
  induction n using Nat.strongRecOn generalizing k b with
  | ind n inner =>
    intro scopes p fits same here
    rw [body_eq]
    refine bodyOver_agrees b (sameLevel_withRoom fits inner p.left (.inr (Nat.le_refl _)))
      (fun atom j => sameLevel_withRoom fits inner j (.inl (atom ▸ rfl))) scopes p fits.self same here

/-- What a level comes back to agrees with the rules. -/
theorem again_agrees (n k : Nat) :
    Agrees n k Anywhere (body .disjunction) ((Level.withRoom n).again .disjunction) ∧
      Agrees n k Anywhere (body .arithmetic) ((Level.withRoom n).again .arithmetic) :=
  operands_agree_of (fun _ _ => body_agrees _) k

theorem body_sameLevel (n k : Nat) : SameLevel n k body (.withRoom n) :=
  sameLevel (fun m _ => body_agrees m k) (again_agrees n (k - 1)).1 (again_agrees n (k - 1)).2

/-! ### Nothing is cut off -/

/-- What a rule comes back to are the rules themselves: the check that ends the recursion is never
met. -/
theorem body_plain {p : Parser} (fits : p.Fits n k) (b : Body) :
    Alike (body b) (bodyOver body b) p := by
  have plain : Agrees n k Anywhere (bodyOver body b) (b.reader (.withRoom n)) :=
    bodyOver_agrees b (body_sameLevel n k) fun _ => body_sameLevel n
  exact (body_agrees n k b p.scopes).alike (plain p.scopes) fits rfl trivial

/-- What a level comes back to are its rules themselves, in front of any tokens that come to the end
of the input: the check that ends the recursion is never met. -/
theorem again_plain {us : List Token} (few : n ≤ maxNesting)
    (ends : ∃ front here, us = front ++ [⟨.endOfInput, here⟩]) :
    (Level.withRoom n).again .disjunction us = Script.disjunction (.withRoom n) us ∧
      (Level.withRoom n).again .arithmetic us = Script.arithmetic (.withRoom n) us := by
  have fits : Fits n us.length ⟨us, 0, maxNesting - n, .new⟩ := by
    refine ⟨ends, ?_, Nat.sub_sub_self few, Nat.le_refl _⟩
    obtain ⟨front, here, rfl⟩ := ends
    simp
  obtain ⟨disjunction, arithmetic⟩ := again_agrees n us.length
  exact ⟨disjunction.unique (body_agrees n us.length .disjunction) fits trivial,
    arithmetic.unique (body_agrees n us.length .arithmetic) fits trivial⟩

end ConceptForest.Script.Parser
