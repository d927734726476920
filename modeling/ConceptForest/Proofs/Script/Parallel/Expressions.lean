import ConceptForest.Proofs.Script.Parallel.Readers

/-!
Rules for expressions read parallel lists of tokens alike.

There is one lemma for each rule of the grammar, in the order of the rules: what it reads from the
one list it reads from the other, if that holds of the rules it goes down to. The two levels of a
lemma are the same level at different places of its recursion. Levels are closed by induction on the
room that is left.

* `nested_tracks`, `Level.Tracks.withRoom` — so every level reads parallel lists alike.
-/

namespace ConceptForest.Script

open Reader

variable {strict : Prop} {R : Pairing} {rules rules' : Nested} {level level' : Level}
  {item item' plain plain' : Reader Expr}

/-- The rules that open a nesting level read paired lists alike. -/
structure Nested.Tracks (strict : Prop) (R : Pairing) (rules rules' : Nested) : Prop where
  test : Script.Tracks strict R rules.test rules'.test
  negated : Script.Tracks strict R rules.negated rules'.negated
  signed : Script.Tracks strict R rules.signed rules'.signed
  atom : Script.Tracks strict R rules.atom rules'.atom

/-- So do those that the level comes back to, and no expression begins at the end of a line. -/
structure Level.Tracks (strict : Prop) (R : Pairing) (level level' : Level) : Prop extends
    Nested.Tracks strict R level.toNested level'.toNested where
  again : ∀ operand, Script.Tracks strict R (level.again operand) (level'.again operand)
  ends : Refuses level.test .newline

variable (parallel : Parallel strict R) (tracks : Level.Tracks strict R level level')

include parallel

/-! ### Lists of expressions -/

theorem tupleOf_tracks (follows : Tracks strict R item item') :
    Tracks strict R (tupleOf item) (tupleOf item') := by
  refine follows.bind fun first =>
    .choose (parallel.isOp (by decide)) (.onLine ?_) (.pure fun _ _ => id)
  refine (parallel.manyWhile ?_ follows).bind fun _ => .pure fun _ _ => id
  exact .choose (parallel.eatOp (by decide)) parallel.startsExpression.forget (.pure fun _ _ => id)

include tracks

theorem namedTest_tracks : Tracks strict R (namedTest level) (namedTest level') := by
  refine parallel.peek rfl fun l => ?_
  cases l with
  | name text =>
    refine Follows.content (parallel.peekSecond (by rfl) fun second =>
      parallel.skipTwo ?_ ?_ (by rfl)) (by rfl)
    · exact tracks.test.bind fun _ => .pure fun _ _ => id
    · exact tracks.test
  | _ => exact tracks.test.anywhere

theorem starOr_tracks (follows : Tracks strict R plain plain') :
    Tracks strict R (starOr level plain) (starOr level' plain') :=
  .choose (parallel.eatOp (by decide))
    ((tracks.again .arithmetic).bind fun _ => .pure fun _ _ => id) follows

theorem testList_tracks : Tracks strict R (testList level) (testList level') :=
  tupleOf_tracks parallel (starOr_tracks parallel tracks tracks.test)

theorem targetList_tracks : Tracks strict R (targetList level) (targetList level') :=
  tupleOf_tracks parallel (starOr_tracks parallel tracks (tracks.again .arithmetic))

theorem yieldExpr_tracks :
    Follows strict (Content R) (yieldExpr level) (yieldExpr level') fun _ => R := by
  refine parallel.advance.bind fun _ => .choose parallel.eatWord ?_ ?_
  · exact tracks.test.bind fun _ => .pure fun _ _ => id
  · refine .choose parallel.startsExpression (.onLine ?_) (.pure fun _ _ => id)
    exact (testList_tracks parallel tracks).bind fun _ => .pure fun _ _ => id

theorem yieldOrTestList_tracks :
    Tracks strict R (yieldOrTestList level) (yieldOrTestList level') :=
  .choose parallel.isWord (yieldExpr_tracks parallel tracks) (testList_tracks parallel tracks)

/-! ### Comprehensions, arguments and subscripts -/

omit tracks in
theorem atGenerator_tracks : Tracks strict R atGenerator atGenerator := by
  refine .choose parallel.isWord (.onLine (.pure fun _ _ => id)) ?_
  refine .choose parallel.isWord ?_ (.pure fun _ _ => id)
  exact parallel.peekSecond rfl fun _ => .pure fun _ _ paired => paired.1.1

theorem generator_tracks : Tracks strict R (generator level) (generator level') := by
  refine parallel.eatWord.bind fun _ => parallel.expectWord.bind fun _ =>
    (targetList_tracks parallel tracks).bind fun _ => parallel.expectWord.bind fun _ =>
      (tracks.again .disjunction).bind fun _ => ?_
  exact (parallel.manyWhile parallel.eatWord (tracks.again .disjunction)).bind fun _ =>
    .pure fun _ _ => id

theorem comprehensionOf_tracks (elements : List Expr) :
    Tracks strict R (comprehensionOf level elements) (comprehensionOf level' elements) := by
  have clause := generator_tracks parallel tracks
  exact clause.bind fun _ => (parallel.manyWhile (atGenerator_tracks parallel) clause).bind
    fun _ => .pure fun _ _ => id

theorem argument_tracks : Tracks strict R (argument level) (argument level') := by
  refine .choose (parallel.eatIf (parallel.isOneOf (by decide))) tracks.test
    (parallel.peek rfl fun l => ?_)
  have value : Tracks strict R
      (do
        let value ← namedTest level
        if ← atGenerator then comprehensionOf level [value] else return value)
      (do
        let value ← namedTest level'
        if ← atGenerator then comprehensionOf level' [value] else return value) :=
    (namedTest_tracks parallel tracks).bind fun value => .choose (atGenerator_tracks parallel)
      (comprehensionOf_tracks parallel tracks [value]) (.pure fun _ _ => id)
  cases l with
  | name text =>
    exact Follows.content (parallel.peekSecond rfl fun second =>
      parallel.skipTwo tracks.test value (by rfl)) (by rfl)
  | _ => exact .peekSecond fun _ _ => value.anywhere

omit parallel in
theorem Level.Tracks.namedTest_ends : Refuses (namedTest level) .newline :=
  namedTest_refuses rfl tracks.ends

omit parallel in
theorem Level.Tracks.argument_ends : Refuses (argument level) .newline := by
  refine .choose (.eatIf (.isOneOf rfl)) (.peek (.peekSecond fun _ => ?_))
  exact tracks.namedTest_ends.bind

theorem arguments_tracks : Tracks strict R (arguments level) (arguments level') := by
  have closed : ∀ args : List Expr, Tracks strict R
      (do expectOp ")"; return args) (do expectOp ")"; return args) :=
    fun args => parallel.expectOp.bind fun _ => .pure fun _ _ => id
  refine parallel.closing ?_ ?_ ?_
  · exact tracks.argument_ends.bind.bind
  · exact .bind (.pure fun _ _ => And.left) closed
  · exact (parallel.commaSeparated tracks.argument_ends (argument_tracks parallel tracks)).bind closed

theorem subscriptItem_tracks :
    Tracks strict R (subscriptItem level) (subscriptItem level') := by
  have bound : Tracks strict R
      (do if ← isOneOf ["]", ","] then return [] else return [← level.test])
      (do if ← isOneOf ["]", ","] then return [] else return [← level'.test]) :=
    .choose (parallel.isOneOf (by decide)) (.onLine (.pure fun _ _ => id))
      (tracks.test.bind fun _ => .pure fun _ _ => id)
  have index := starOr_tracks parallel tracks (namedTest_tracks parallel tracks)
  refine (parallel.isOp (by decide)).forget.bind fun _ => .join (fun _ => R)
    (fun _ _ more => .either (.nothing more) (index.single more)) fun lower => ?_
  refine .choose (parallel.eatOp (by decide)) ?_ (.pure fun _ _ => id)
  refine (parallel.isOp (by decide)).forget.bind fun _ => .join (fun _ => R)
    (fun _ _ more => .either (.nothing more) (bound.bind more)) fun upper => ?_
  exact (parallel.eatOp (by decide)).bind fun _ => .join (fun _ => R)
    (fun _ _ more => .either (bound.bind more) (.nothing more)) fun _ => .pure fun _ _ => id

omit parallel in
theorem Level.Tracks.subscriptItem_ends : Refuses (subscriptItem level) .newline :=
  .choose (.isOp nofun) (starOr_refuses rfl tracks.namedTest_ends).bind

theorem subscripts_tracks : Tracks strict R (subscripts level) (subscripts level') :=
  (parallel.commaSeparated tracks.subscriptItem_ends (subscriptItem_tracks parallel tracks)).bind
    fun _ => parallel.expectOp.bind fun _ => .pure fun _ _ => id

/-! ### Operators -/

theorem trailer?_tracks : Tracks strict R (trailer? level) (trailer? level') := by
  refine .choose (parallel.eatOp (by decide)) ?_ (.choose (parallel.eatOp (by decide)) ?_
    (.choose (parallel.eatOp (by decide)) ?_ ?_))
  · exact (arguments_tracks parallel tracks).bind fun _ => .pure fun _ _ => id
  · exact (subscripts_tracks parallel tracks).bind fun _ => .pure fun _ _ => id
  · refine parallel.peek rfl fun l => ?_
    cases l with
    | name text => exact (parallel.advance.content (by rfl)).bind fun _ => .pure fun _ _ => id
    | _ => exact parallel.unexpected.anywhere
  · exact .pure fun _ _ => id

theorem primary_tracks : Tracks strict R (primary level) (primary level') :=
  tracks.atom.bind fun _ => (parallel.many (trailer?_tracks parallel tracks)).bind fun _ =>
    .pure fun _ _ => id

theorem awaited_tracks : Tracks strict R (awaited level) (awaited level') := by
  have operand := primary_tracks parallel tracks
  exact .choose parallel.eatWord (operand.bind fun _ => .pure fun _ _ => id) operand

theorem signedOr_tracks (follows : Tracks strict R plain plain') :
    Tracks strict R (signedOr level plain) (signedOr level' plain') :=
  .choose (parallel.eatIf (parallel.isOneOf (by decide)))
    (tracks.signed.bind fun _ => .pure fun _ _ => id) follows

theorem factor_tracks : Tracks strict R (factor level) (factor level') := by
  have operand := awaited_tracks parallel tracks
  refine signedOr_tracks parallel tracks (operand.bind fun _ => ?_)
  have exponent := signedOr_tracks parallel tracks operand
  exact (parallel.manyWhile (parallel.eatOp (by decide)) exponent).bind
    fun _ => .pure fun _ _ => id

omit tracks in
/-- Operands between operators, whatever these are. -/
theorem operands_track {more : Reader Bool} (asked : Tracks strict R more more)
    (follows : Tracks strict R item item') :
    Tracks strict R (do return Expr.combine (← oneAndMore more item))
      (do return Expr.combine (← oneAndMore more item')) :=
  (parallel.oneAndMore asked follows).bind fun _ => .pure fun _ _ => id

theorem arithmetic_tracks : Tracks strict R (arithmetic level) (arithmetic level') := by
  have other : ∀ ops ∈ binaryOperators, ops.contains ")" = false := by decide
  unfold arithmetic
  generalize binaryOperators = operators at other
  induction operators with
  | nil => exact factor_tracks parallel tracks
  | cons ops others ih =>
    obtain ⟨first, others⟩ := List.forall_mem_cons.mp other
    exact operands_track parallel (parallel.eatIf (parallel.isOneOf first)) (ih others)

omit tracks in
theorem eatComparison_tracks : Tracks strict R eatComparison eatComparison := by
  refine .choose (parallel.eatIf (parallel.isOneOf (by decide))) (.pure fun _ _ => id) ?_
  refine .choose parallel.eatWord (.pure fun _ _ => id) (parallel.isWord.bind fun answer => ?_)
  have identity : Tracks strict R
      (do if ← eatWord "is" then let _ ← eatWord "not"; return true else return false)
      (do if ← eatWord "is" then let _ ← eatWord "not"; return true else return false) :=
    .choose parallel.eatWord (parallel.eatWord.bind fun _ => .pure fun _ _ => id)
      (.pure fun _ _ => id)
  cases answer with
  | true =>
    exact parallel.peekSecond rfl fun _ => parallel.skipTwo (.pure fun _ _ => id) identity (by rfl)
  | false => exact .peekSecond fun _ _ => identity

theorem comparison_tracks : Tracks strict R (comparison level) (comparison level') :=
  operands_track parallel (eatComparison_tracks parallel) (arithmetic_tracks parallel tracks)

theorem negation_tracks : Tracks strict R (negation level) (negation level') :=
  .choose parallel.eatWord (tracks.negated.bind fun _ => .pure fun _ _ => id)
    (comparison_tracks parallel tracks)

theorem conjunction_tracks : Tracks strict R (conjunction level) (conjunction level') :=
  operands_track parallel parallel.eatWord (negation_tracks parallel tracks)

theorem disjunction_tracks : Tracks strict R (disjunction level) (disjunction level') :=
  operands_track parallel parallel.eatWord (conjunction_tracks parallel tracks)

/-! ### Functions and conditionals -/

theorem annotation_tracks (annotated : Bool) :
    Tracks strict R ( annotation level annotated) ( annotation level' annotated) :=
  .either (.choose (parallel.eatOp (by decide)) (tracks.test.bind fun _ => .pure fun _ _ => id)
    (.pure fun _ _ => id)) (.pure fun _ _ => id)

theorem parameter_tracks (annotated : Bool) :
    Tracks strict R (parameter level annotated) (parameter level' annotated) := by
  have note := annotation_tracks parallel tracks annotated
  refine .choose (parallel.eatOp (by decide)) (.pure fun _ _ => id)
    (.choose (parallel.eatIf (parallel.isOneOf (by decide))) (parallel.peek rfl fun l => ?_) ?_)
  · cases l with
    | name text =>
      exact (parallel.expectName.bind fun _ => note.bind fun _ => .pure fun _ _ => id).anywhere
    | _ => exact .pure fun _ _ => And.left
  · refine parallel.expectName.bind fun _ => note.bind fun _ => ?_
    exact (parallel.eatOp (by decide)).bind fun _ => .join (fun _ => R)
      (fun _ _ more => .either (tracks.test.single more) (.nothing more))
      fun _ => .pure fun _ _ => id

omit parallel tracks in
theorem parameter_ends (annotated : Bool) : Refuses (parameter level annotated) .newline :=
  .choose (.eatOp nofun) (.choose (.eatIf (.isOneOf rfl)) (Refuses.peek (.fail _)).bind)

theorem parameters_tracks (close : String) (annotated : Bool) :
    Tracks strict R (parameters level close annotated) (parameters level' close annotated) :=
  parallel.closing (parameter_ends annotated).bind (.pure fun _ _ => And.left)
    (parallel.commaSeparated (parameter_ends annotated) (parameter_tracks parallel tracks annotated))

theorem lambdaExpr_tracks :
    Follows strict (Content R) (lambdaExpr level) (lambdaExpr level') fun _ => R :=
  parallel.advance.bind fun _ => (parameters_tracks parallel tracks ":" false).bind fun _ =>
    parallel.expectOp.bind fun _ => tracks.test.bind fun _ => .pure fun _ _ => id

theorem conditional_tracks : Tracks strict R (conditional level) (conditional level') := by
  have operand := disjunction_tracks parallel tracks
  refine .choose parallel.isWord (lambdaExpr_tracks parallel tracks) (operand.bind fun _ => ?_)
  refine .choose parallel.eatWord (operand.bind fun _ => ?_) (.pure fun _ _ => id)
  exact parallel.expectWord.bind fun _ => tracks.test.bind fun _ => .pure fun _ _ => id

/-! ### Atoms -/

theorem item_tracks :
    Tracks strict R (starOr level (namedTest level)) (starOr level' (namedTest level')) :=
  starOr_tracks parallel tracks (namedTest_tracks parallel tracks)

omit parallel in
theorem Level.Tracks.item_ends : Refuses (starOr level (namedTest level)) .newline :=
  starOr_refuses rfl tracks.namedTest_ends

theorem sequenceTail_tracks (first : Expr) (close : String) :
    Tracks strict R (sequenceTail level first close) (sequenceTail level' first close) :=
  (parallel.manyUpTo tracks.item_ends (item_tracks parallel tracks)).bind fun _ =>
    parallel.expectOp.bind fun _ => .pure fun _ _ => id

/-- A comprehension and the mark that closes it. -/
theorem closedComprehension_tracks (elements : List Expr) (close : String) :
    Tracks strict R (do let e ← comprehensionOf level elements; expectOp close; return e)
      (do let e ← comprehensionOf level' elements; expectOp close; return e) :=
  (comprehensionOf_tracks parallel tracks elements).bind fun _ => parallel.expectOp.bind fun _ =>
    .pure fun _ _ => id

theorem parenthesized_tracks : Tracks strict R (parenthesized level) (parenthesized level') := by
  refine parallel.eatClosing (.choose (.isWord nofun) tracks.item_ends.bind)
    (.pure fun _ _ => id) (.choose parallel.isWord ?_ ?_)
  · exact (yieldExpr_tracks parallel tracks).bind fun _ => parallel.expectOp.bind fun _ =>
      .pure fun _ _ => id
  · refine (item_tracks parallel tracks).bind fun first => .choose (atGenerator_tracks parallel)
      (closedComprehension_tracks parallel tracks [first] ")") (.choose (parallel.isOp (by decide)) ?_ ?_)
    · exact .onLine <| (sequenceTail_tracks parallel tracks first ")").bind fun _ =>
        .pure fun _ _ => id
    · exact parallel.expectOp.bind fun _ => .pure fun _ _ => id

theorem bracketed_tracks : Tracks strict R (bracketed level) (bracketed level') := by
  refine .choose (parallel.eatOp (by decide)) (.pure fun _ _ => id)
    ((item_tracks parallel tracks).bind fun first => .choose (atGenerator_tracks parallel) ?_ ?_)
  · exact closedComprehension_tracks parallel tracks [first] "]"
  · exact (sequenceTail_tracks parallel tracks first "]").bind fun _ => .pure fun _ _ => id

theorem braceEntry_tracks : Tracks strict R (braceEntry level) (braceEntry level') := by
  refine .choose (parallel.eatOp (by decide)) (tracks.again .arithmetic)
    ((item_tracks parallel tracks).bind fun key =>
      .choose (parallel.eatOp (by decide)) ?_ (.pure fun _ _ => id))
  exact tracks.test.bind fun _ => .pure fun _ _ => id

omit parallel in
theorem Level.Tracks.braceEntry_ends : Refuses (braceEntry level) .newline :=
  .choose (.eatOp nofun) tracks.item_ends.bind

theorem braced_tracks : Tracks strict R (braced level) (braced level') := by
  have entry := braceEntry_tracks parallel tracks
  refine .choose (parallel.eatOp (by decide)) (.pure fun _ _ => id) (entry.bind fun first =>
    .choose (atGenerator_tracks parallel)
      (closedComprehension_tracks parallel tracks [first] "\x7d") ?_)
  exact (parallel.manyUpTo tracks.braceEntry_ends entry).bind fun _ =>
    parallel.expectOp.bind fun _ => .pure fun _ _ => id

omit parallel tracks in
theorem mapError_bind {ε ε' α β : Type} (f : ε → ε') (x : Except ε α) (further : α → Except ε β) :
    (x >>= further).mapError f = x.mapError f >>= fun a => (further a).mapError f := by
  cases x <;> rfl

omit parallel tracks in
/-- Where a string stands matters to what errors say only. -/
theorem fieldValue_anywhere (p q : Text.Position) (field : String) :
    (fieldValue level p field).mapError SyntaxError.fault =
      (fieldValue level q field).mapError SyntaxError.fault := by
  unfold fieldValue
  split
  · rfl
  · split
    · rfl
    · split <;> rfl

omit parallel tracks in
theorem fieldValues_anywhere (p q : Text.Position) (fields : List String) :
    (fields.mapM (fieldValue level p)).mapError SyntaxError.fault =
      (fields.mapM (fieldValue level q)).mapError SyntaxError.fault := by
  induction fields with
  | nil => rfl
  | cons field fields ih =>
    rw [List.mapM_cons, List.mapM_cons, mapError_bind, mapError_bind,
      fieldValue_anywhere p q field]
    simp only [mapError_bind, ih]

omit tracks in
theorem stringFields?_tracks (p q : Text.Position) :
    Tracks strict R (stringFields? level p) (stringFields? level q) := by
  refine parallel.peek rfl fun l => ?_
  cases l with
  | string fields =>
    exact (parallel.advance.content (by rfl)).bind fun _ =>
      (Follows.monadLift (fun _ _ _ => id) (fieldValues_anywhere p q fields)).bind fun _ =>
        .pure fun _ _ => id
  | _ => exact .pure fun _ _ => And.left

omit tracks in
theorem plainAtom_tracks (tracks : Level.Tracks strict R level level) :
    Tracks strict R (plainAtom level) (plainAtom level) := by
  refine .position fun p q => parallel.peekOrFail .unexpected fun l => ?_
  split
  · exact (parallel.advance.content (by rfl)).bind fun _ => parenthesized_tracks parallel tracks
  · exact (parallel.advance.content (by rfl)).bind fun _ => bracketed_tracks parallel tracks
  · exact (parallel.advance.content (by rfl)).bind fun _ => braced_tracks parallel tracks
  · exact (parallel.advance.content (by rfl)).bind fun _ => .pure fun _ _ => id
  · exact (parallel.advance.content (by rfl)).bind fun _ => .pure fun _ _ => id
  · next text =>
    refine .either ((parallel.advance.content (by rfl)).bind fun _ => .pure fun _ _ => id)
      (.either ?_ ?_)
    · exact parallel.unexpected.anywhere
    · exact (parallel.advance.content (by rfl)).bind fun _ => .pure fun _ _ => id
  · exact ((parallel.many (stringFields?_tracks parallel p q)).bind fun _ =>
      .pure fun _ _ => id).anywhere
  · exact parallel.unexpected.anywhere

/-! ### Levels -/

omit parallel tracks

/-- A level reads paired lists alike if the nested rules do. -/
theorem Level.Tracks.over (parallel : Parallel strict R) (inner : Nested.Tracks strict R rules rules)
    (ends : Refuses rules.test .newline) :
    Level.Tracks strict R (Level.over rules) (Level.over rules) where
  toTracks := inner
  again := by
    refine parallel.recursive fun again again' follows operand => ?_
    have tracks : Level.Tracks strict R { rules with again } { rules with again := again' } :=
      ⟨inner, follows, ends⟩
    cases operand with
    | disjunction => exact disjunction_tracks parallel tracks
    | arithmetic => exact arithmetic_tracks parallel tracks
  ends := ends

/-- However much room is left, the nested rules read paired lists alike. -/
theorem nested_tracks (parallel : Parallel strict R) (n : Nat) :
    Nested.Tracks strict R (nested n) (nested n) := by
  induction n with
  | zero => exact ⟨.fail, .fail, .fail, .fail⟩
  | succ n ih =>
    have tracks := Level.Tracks.over parallel ih (nested_refuses n rfl).test
    exact ⟨conditional_tracks parallel tracks, negation_tracks parallel tracks,
      factor_tracks parallel tracks, plainAtom_tracks parallel tracks⟩

theorem Level.Tracks.withRoom (parallel : Parallel strict R) (n : Nat) :
    Level.Tracks strict R (.withRoom n) (.withRoom n) :=
  .over parallel (nested_tracks parallel n) (nested_refuses n rfl).test

end ConceptForest.Script
