import ConceptForest.Proofs.Script.Names
import ConceptForest.Proofs.Script.Readers
import ConceptForest.Script.Expr.Parser

/-!
No rule for expressions takes a keyword for a name.

There is one lemma for each rule of the grammar, in the order of the rules: it hands back
expressions free of keywords if the rules it goes down to do. Levels are closed by induction on the
room that is left.

* `Level.Plain.over`, `nested_plain` — so every level reads expressions free of keywords.
-/

namespace ConceptForest.Script

open Reader

/-- The rules that open a nesting level read no keyword for a name. -/
structure Nested.Plain (rules : Nested) : Prop where
  test : Yields rules.test Expr.Plain
  negated : Yields rules.negated Expr.Plain
  signed : Yields rules.signed Expr.Plain
  atom : Yields rules.atom Expr.Plain

/-- Nor do those that the level comes back to. -/
structure Level.Plain (level : Level) : Prop extends Nested.Plain level.toNested where
  again : ∀ operand, Yields (level.again operand) Expr.Plain

/-- No expression of the list reads a keyword. -/
abbrev AllPlain (es : List Expr) : Prop := ∀ e ∈ es, e.Plain

variable {level : Level} {rules : Nested} {item plain : Reader Expr} {es : List Expr}

theorem allPlain_cons {e : Expr} (plain : e.Plain) (others : AllPlain es) : AllPlain (e :: es) :=
  List.forall_mem_cons.mpr ⟨plain, others⟩

theorem allPlain_singleton {e : Expr} (plain : e.Plain) : AllPlain [e] :=
  List.forall_mem_singleton.mpr plain

theorem allPlain_append {es' : List Expr} (plain : AllPlain es) (others : AllPlain es') :
    AllPlain (es ++ es') :=
  List.forall_mem_append.mpr ⟨plain, others⟩

/-- An operation of one operand. -/
theorem Expr.Plain.unary {e : Expr} (plain : e.Plain) : (Expr.operation [e]).Plain :=
  .operation (allPlain_singleton plain)

/-! ### Lists of expressions -/

theorem namedTest_plain (sound : level.Plain) : Yields (namedTest level) Expr.Plain := by
  refine .behind fun lexeme => ?_
  split
  · refine .behind fun second => .either ?_ sound.test
    exact .behind fun _ => .behind fun _ => sound.test.bind fun value holds => .pure (.named holds)
  · exact sound.test

theorem starOr_plain (sound : level.Plain) (yields : Yields plain Expr.Plain) :
    Yields (starOr level plain) Expr.Plain :=
  .choose ((sound.again .arithmetic).bind fun _ holds => .pure (.starred holds)) yields

theorem tupleOf_plain (yields : Yields item Expr.Plain) : Yields (tupleOf item) Expr.Plain :=
  yields.bind fun _ first => .choose
    (yields.manyWhile.bind fun _ others => .pure (.tuple (allPlain_cons first others)))
    (.pure first)

theorem testList_plain (sound : level.Plain) : Yields (testList level) Expr.Plain :=
  tupleOf_plain (starOr_plain sound sound.test)

theorem targetList_plain (sound : level.Plain) : Yields (targetList level) Expr.Plain :=
  tupleOf_plain (starOr_plain sound (sound.again .arithmetic))

theorem yieldExpr_plain (sound : level.Plain) : Yields (yieldExpr level) Expr.Plain :=
  .behind fun _ => .choose (sound.test.bind fun _ holds => .pure holds.unary)
    (.choose ((testList_plain sound).bind fun _ holds => .pure holds.unary)
      (.pure (.operation nofun)))

theorem yieldOrTestList_plain (sound : level.Plain) : Yields (yieldOrTestList level) Expr.Plain :=
  .choose (yieldExpr_plain sound) (testList_plain sound)

/-! ### Comprehensions, arguments and subscripts -/

theorem generator_plain (sound : level.Plain) : Yields (generator level) Generator.Plain :=
  .behind fun _ => .behind fun _ => (targetList_plain sound).bind fun _ target =>
    .behind fun _ => (sound.again .disjunction).bind fun _ source =>
      (sound.again .disjunction).manyWhile.bind fun _ conditions =>
        .pure (.clause target source conditions)

theorem comprehensionOf_plain (sound : level.Plain) (elements : AllPlain es) :
    Yields (comprehensionOf level es) Expr.Plain :=
  (generator_plain sound).bind fun _ first => (generator_plain sound).manyWhile.bind
    fun _ others => .pure (.comprehension elements first others)

theorem argument_plain (sound : level.Plain) : Yields (argument level) Expr.Plain := by
  refine .choose sound.test (.behind fun lexeme => .behind fun second => .either ?_ ?_)
  · exact .behind fun _ => .behind fun _ => sound.test
  · exact (namedTest_plain sound).bind fun value holds =>
      .choose (comprehensionOf_plain sound (allPlain_singleton holds)) (.pure holds)

theorem arguments_plain (sound : level.Plain) : Yields (arguments level) AllPlain :=
  .behind fun _ => .join AllPlain
    (fun _ further => .either (.nothing further)
      ((argument_plain sound).commaSeparated.bind further))
    (fun _ args => .behind fun _ => .pure args)

theorem subscriptItem_plain (sound : level.Plain) : Yields (subscriptItem level) AllPlain := by
  have bound : Yields (do if ← isOneOf ["]", ","] then return [] else return [← level.test])
      AllPlain :=
    .choose (.pure nofun) (sound.test.bind fun _ holds => .pure (allPlain_singleton holds))
  have index := starOr_plain sound (namedTest_plain sound)
  refine .behind fun _ => .join AllPlain
    (fun _ further => .either (.nothing further) (index.single further)) fun _ lower => ?_
  refine .choose (.behind fun _ => .join AllPlain
    (fun _ further => .either (.nothing further) (bound.bind further)) fun _ upper => ?_)
    (.pure lower)
  refine .behind fun _ => .join AllPlain
    (fun _ further => .either (bound.bind further) (.nothing further)) fun _ stride => ?_
  exact .pure (allPlain_append (allPlain_append lower upper) stride)

theorem subscripts_plain (sound : level.Plain) : Yields (subscripts level) AllPlain :=
  (subscriptItem_plain sound).commaSeparated.bind fun _ items => .behind fun _ =>
    .pure (List.forall_mem_flatten.mpr items)

/-! ### Operators -/

/-- What can follow an atom reads no keyword. -/
inductive Trailer.Plain : Trailer → Prop where
  | call {args : List Expr} (plain : AllPlain args) : Plain (.call args)
  | subscript {index : List Expr} (plain : AllPlain index) : Plain (.subscript index)
  | member : Plain .member

theorem Trailer.Plain.apply {t : Trailer} {object : Expr} (trailer : t.Plain)
    (plain : object.Plain) : (t.apply object).Plain := by
  cases trailer with
  | call args => exact .operation (allPlain_cons plain args)
  | subscript index => exact .subscript plain index
  | member => exact .member plain

theorem trailer?_plain (sound : level.Plain) :
    Yields (trailer? level) fun found => ∀ t ∈ found, t.Plain := by
  refine .choose ?_ (.choose ?_ (.choose (.behind fun lexeme => ?_) (.pure nofun)))
  · exact (arguments_plain sound).bind fun _ args => .found (.call args)
  · exact (subscripts_plain sound).bind fun _ index => .found (.subscript index)
  · split
    · exact .behind fun _ => .found .member
    · exact .unexpected

theorem foldl_apply_plain {trailers : List Trailer} {e : Expr} (plain : e.Plain)
    (all : ∀ t ∈ trailers, t.Plain) : (trailers.foldl Trailer.apply e).Plain := by
  induction trailers generalizing e with
  | nil => exact plain
  | cons t trailers ih =>
    obtain ⟨first, others⟩ := List.forall_mem_cons.mp all
    exact ih (first.apply plain) others

theorem primary_plain (sound : level.Plain) : Yields (primary level) Expr.Plain :=
  sound.atom.bind fun _ atom => (trailer?_plain sound).many.bind fun _ trailers =>
    .pure (foldl_apply_plain atom trailers)

theorem awaited_plain (sound : level.Plain) : Yields (awaited level) Expr.Plain :=
  .choose ((primary_plain sound).bind fun _ holds => .pure holds.unary) (primary_plain sound)

theorem signedOr_plain (sound : level.Plain) (yields : Yields plain Expr.Plain) :
    Yields (signedOr level plain) Expr.Plain :=
  .choose (sound.signed.bind fun _ holds => .pure holds.unary) yields

theorem powers_plain {e : Expr} (base : e.Plain) (exponents : AllPlain es) :
    (powers e es).Plain := by
  induction es generalizing e with
  | nil => exact base
  | cons exponent others ih =>
    obtain ⟨first, others⟩ := List.forall_mem_cons.mp exponents
    exact .operation (allPlain_cons base (allPlain_singleton (ih first others)))

theorem factor_plain (sound : level.Plain) : Yields (factor level) Expr.Plain :=
  signedOr_plain sound <| (awaited_plain sound).bind fun _ base =>
    (signedOr_plain sound (awaited_plain sound)).manyWhile.bind fun _ exponents =>
      .pure (powers_plain base exponents)

/-- Operands between operators, whatever these are. -/
theorem operands_plain {more : Reader Bool} (yields : Yields item Expr.Plain) :
    Yields (do return .combine (← oneAndMore more item)) Expr.Plain :=
  yields.oneAndMore.bind fun _ operands => .pure (.combine operands)

theorem arithmetic_plain (sound : level.Plain) : Yields (arithmetic level) Expr.Plain := by
  unfold arithmetic
  induction binaryOperators with
  | nil => exact factor_plain sound
  | cons ops others ih => exact operands_plain ih

theorem comparison_plain (sound : level.Plain) : Yields (comparison level) Expr.Plain :=
  operands_plain (arithmetic_plain sound)

theorem negation_plain (sound : level.Plain) : Yields (negation level) Expr.Plain :=
  .choose (sound.negated.bind fun _ holds => .pure holds.unary) (comparison_plain sound)

theorem conjunction_plain (sound : level.Plain) : Yields (conjunction level) Expr.Plain :=
  operands_plain (negation_plain sound)

theorem disjunction_plain (sound : level.Plain) : Yields (disjunction level) Expr.Plain :=
  operands_plain (conjunction_plain sound)

/-! ### Functions and conditionals -/

/-- What the parameter reads where the function stands is no keyword. -/
def Parameter.Plain (p : Parameter) : Prop :=
  AllPlain p.reads

theorem annotation_plain {annotated : Bool} (sound : level.Plain) :
    Yields ( annotation level annotated) AllPlain :=
  .either (.choose (sound.test.bind fun _ holds => .pure (allPlain_singleton holds))
    (.pure nofun)) (.pure nofun)

theorem parameter_plain {annotated : Bool} (sound : level.Plain) :
    Yields (parameter level annotated) Parameter.Plain := by
  refine .choose (.pure nofun) (.choose (.behind fun lexeme => ?_) ?_)
  · split
    · exact .behind fun name => (annotation_plain sound).bind fun _ note => .pure note
    · exact .pure nofun
  · refine .behind fun name => (annotation_plain sound).bind fun _ note => .behind fun _ => ?_
    exact .join AllPlain (fun _ further => .either (sound.test.single further) (.nothing further))
      fun _ default => .pure (allPlain_append default note)

theorem parameters_plain {close : String} {annotated : Bool} (sound : level.Plain) :
    Yields (parameters level close annotated) fun ps => ∀ p ∈ ps, p.Plain :=
  .choose (.pure nofun) (parameter_plain sound).commaSeparated

theorem parameterReads_plain {ps : List Parameter} (all : ∀ p ∈ ps, p.Plain) :
    AllPlain (parameterReads ps) :=
  List.forall_mem_flatMap.mpr all

theorem lambdaExpr_plain (sound : level.Plain) : Yields (lambdaExpr level) Expr.Plain :=
  .behind fun _ => (parameters_plain sound).bind fun _ ps => .behind fun _ =>
    sound.test.bind fun _ body => .pure (.lambda (parameterReads_plain ps) body)

theorem conditional_plain (sound : level.Plain) : Yields (conditional level) Expr.Plain := by
  refine .choose (lambdaExpr_plain sound) ((disjunction_plain sound).bind fun _ body => ?_)
  refine .choose ((disjunction_plain sound).bind fun _ condition => ?_) (.pure body)
  exact .behind fun _ => sound.test.bind fun _ alternative => .pure <| .operation <|
    allPlain_cons body (allPlain_cons condition (allPlain_singleton alternative))

/-! ### Atoms -/

theorem sequenceTail_plain {first : Expr} {close : String} (sound : level.Plain)
    (holds : first.Plain) : Yields (sequenceTail level first close) AllPlain :=
  (starOr_plain sound (namedTest_plain sound)).manyWhile.bind fun _ others =>
    .behind fun _ => .pure (allPlain_cons holds others)

/-- A comprehension and the mark that closes it. -/
theorem closedComprehension_plain {close : String} (sound : level.Plain) (elements : AllPlain es) :
    Yields (do let e ← comprehensionOf level es; expectOp close; return e) Expr.Plain :=
  (comprehensionOf_plain sound elements).bind fun _ holds => .behind fun _ => .pure holds

theorem parenthesized_plain (sound : level.Plain) : Yields (parenthesized level) Expr.Plain := by
  refine .choose (.pure (.tuple nofun)) (.choose ?_ ?_)
  · exact (yieldExpr_plain sound).bind fun _ inner => .behind fun _ => .pure inner
  · refine (starOr_plain sound (namedTest_plain sound)).bind fun _ first => .choose
      (closedComprehension_plain sound (allPlain_singleton first)) (.choose ?_ ?_)
    · exact (sequenceTail_plain sound first).bind fun _ items => .pure (.tuple items)
    · exact .behind fun _ => .pure first

theorem bracketed_plain (sound : level.Plain) : Yields (bracketed level) Expr.Plain := by
  refine .choose (.pure (.list nofun)) ((starOr_plain sound (namedTest_plain sound)).bind ?_)
  intro _ first
  exact .choose (closedComprehension_plain sound (allPlain_singleton first))
    ((sequenceTail_plain sound first).bind fun _ items => .pure (.list items))

theorem braceEntry_plain (sound : level.Plain) : Yields (braceEntry level) Expr.Plain := by
  refine .choose (sound.again .arithmetic) ((starOr_plain sound (namedTest_plain sound)).bind ?_)
  intro _ key
  exact .choose (sound.test.bind fun _ value =>
    .pure (.operation (allPlain_cons key (allPlain_singleton value)))) (.pure key)

theorem braced_plain (sound : level.Plain) : Yields (braced level) Expr.Plain := by
  refine .choose (.pure (.operation nofun)) ((braceEntry_plain sound).bind fun _ first => ?_)
  refine .choose (closedComprehension_plain sound (allPlain_singleton first)) ?_
  exact (braceEntry_plain sound).manyWhile.bind fun _ others =>
    .behind fun _ => .pure (.operation (allPlain_cons first others))

theorem fieldValue_plain {p : Text.Position} {field : String} {e : Expr} (sound : level.Plain)
    (read : fieldValue level p field = .ok e) : e.Plain := by
  unfold fieldValue at read
  split at read
  · cases read
  · next ts _ =>
    split at read
    · cases read
    · next value rest one =>
      obtain ⟨-, rfl⟩ := grant_eq_ok_iff.mp read
      exact testList_plain sound ts value rest one

theorem stringFields?_plain {p : Text.Position} (sound : level.Plain) :
    Yields (stringFields? level p) fun found => ∀ es ∈ found, AllPlain es := by
  refine .behind fun lexeme => ?_
  split
  · refine .behind fun _ => .bind (.lift fun es read => ?_) fun es fields => .found fields
    intro e mem
    obtain ⟨field, -, one⟩ := exists_of_mem_mapM read mem
    exact fieldValue_plain sound one
  · exact .pure nofun

theorem plainAtom_plain (sound : level.Plain) : Yields (plainAtom level) Expr.Plain := by
  refine .behind fun p => .behind fun lexeme => ?_
  split
  · exact .behind fun _ => parenthesized_plain sound
  · exact .behind fun _ => bracketed_plain sound
  · exact .behind fun _ => braced_plain sound
  · exact .behind fun _ => .pure (.operation nofun)
  · exact .behind fun _ => .pure (.operation nofun)
  · next text =>
    refine .either (.behind fun _ => .pure (.operation nofun)) ?_
    -- the one place where a name is made
    split
    · exact .unexpected
    · next noKeyword => exact .behind fun _ => .pure (.ofName (Bool.not_eq_true _ ▸ noKeyword))
  · exact (stringFields?_plain sound).many.bind fun _ fields =>
      .pure (.operation (List.forall_mem_flatten.mpr fields))
  · exact .unexpected

/-! ### Levels -/

/-- A level reads no keyword for a name if the nested rules do not. -/
theorem Level.Plain.over (inner : rules.Plain) : (Level.over rules).Plain where
  toPlain := inner
  again := by
    refine .recursive fun again yields operand => ?_
    have level : Level.Plain { rules with again } := ⟨inner, yields⟩
    cases operand with
    | disjunction => exact disjunction_plain level
    | arithmetic => exact arithmetic_plain level

/-- However much room is left, the nested rules read no keyword for a name. -/
theorem nested_plain (n : Nat) : (nested n).Plain := by
  induction n with
  | zero => exact ⟨.fail, .fail, .fail, .fail⟩
  | succ n ih =>
    have level := Level.Plain.over ih
    exact ⟨conditional_plain level, negation_plain level, factor_plain level, plainAtom_plain level⟩

theorem Level.Plain.withRoom (n : Nat) : (Level.withRoom n).Plain :=
  .over (nested_plain n)

end ConceptForest.Script
