import ConceptForest.Proofs.Script.Passing.Readers
import ConceptForest.Proofs.Script.Passing.Weights

/-!
What the rules for expressions pass over, and how high the expressions are that they build.

There is one lemma for each rule of the grammar, in the order of the rules. A rule that builds an
expression passes over at least one token, and the expression is at most so much higher than those
of the nested rules, but for the weight of the tokens (`Fits`). What the level comes back to may be
higher by `reach` (`Level.Fits`): a mark has been passed over before it does, and weighs as much.
Levels are closed by induction on the room that is left.

* `nested_fits`, `Level.Fits.withRoom` — so every level adds a fixed height.
-/

namespace ConceptForest.Script

open Reader

/-- Something was passed over, and but for its weight the expression is no higher than `n`. -/
def Fits (n : Nat) (e : Expr) (read : List Token) : Prop :=
  read ≠ [] ∧ e.height ≤ n + weight read

/-- But for the weight of what was passed over, no expression is higher than `n`. -/
def AllFit (n : Nat) (es : List Expr) (read : List Token) : Prop :=
  heightAll es ≤ n + weight read

/-- The rules that open a nesting level build expressions up to a height. -/
structure Nested.Fits (n : Nat) (rules : Nested) : Prop where
  test : Reads Anywhere rules.test (Script.Fits n)
  negated : Reads Anywhere rules.negated (Script.Fits n)
  signed : Reads Anywhere rules.signed (Script.Fits n)
  atom : Reads Anywhere rules.atom (Script.Fits n)

/-- Those that the level comes back to build on top of them. -/
structure Level.Fits (n : Nat) (level : Level) : Prop extends Nested.Fits n level.toNested where
  again : ∀ operand, Reads Anywhere (level.again operand) (Script.Fits (n + reach))

variable {n m : Nat} {level : Level} {rules : Nested} {item plain : Reader Expr} {e : Expr}
  {es : List Expr} {t : Token} {read : List Token} {front : List Token → Prop}
  {between : List Token → Prop} {more : Reader Bool}

theorem Fits.up (fits : Fits n e read) (low : n ≤ m) : Fits m e read :=
  ⟨fits.1, fits.2.trans (Nat.add_le_add_right low _)⟩

/-- The operator has a mark. -/
theorem reach_le_weight {op : String} (same : t.lexeme = .op op) (mark : 0 < marks op.toList) :
    reach + weight read ≤ weight (t :: read) := by
  rw [weight_cons, same]
  exact Nat.add_le_add_right (Nat.le_mul_of_pos_right reach mark) _

theorem heightAll_append {es' : List Expr} :
    heightAll (es ++ es') = max (heightAll es) (heightAll es') := by
  induction es with
  | nil => simp [heightAll]
  | cons e es ih => rw [List.cons_append, heightAll, heightAll, ih, Nat.max_assoc]

namespace AllFit

variable {es' : List Expr} {read' : List Token}

theorem nil : AllFit n [] read :=
  Nat.zero_le _

theorem append (fits : AllFit n es read) (fits' : AllFit n es' read') :
    AllFit n (es ++ es') (read ++ read') := by
  unfold AllFit at fits fits' ⊢
  rw [heightAll_append, weight_append]
  omega

theorem weigh (fits : AllFit n es read) (more : weight read ≤ weight read') : AllFit n es read' :=
  Nat.le_trans fits (Nat.add_le_add_left more n)

theorem grow (fits : AllFit n es read) : AllFit n es (read ++ read') :=
  fits.weigh (by simp)

theorem behind (fits : AllFit n es read) : AllFit n es (read' ++ read) :=
  fits.weigh (by simp)

theorem cons (fits : AllFit n es read) : AllFit n es (t :: read) :=
  fits.weigh (by simp)

theorem up (fits : AllFit n es read) (low : n ≤ m) : AllFit m es read :=
  Nat.le_trans fits (Nat.add_le_add_right low _)

end AllFit

theorem Fits.single (fits : Fits n e read) : AllFit n [e] read :=
  Nat.max_le.mpr ⟨fits.2, Nat.zero_le _⟩

/-! ### Repetition -/

section

variable {α : Type} {exprs : α → List Expr} {good : α → List Token → Prop} {item : Reader α}
  {as : List α}

theorem Each.allFit (each : Each good as read)
    (high : ∀ a read, good a read → AllFit n (exprs a) read) :
    AllFit n (as.flatMap exprs) read := by
  induction each with
  | nil => exact .nil
  | cons first _ ih => exact (high _ _ first).append ih

theorem manyWhile_allFit
    (asked : Reads Anywhere more fun answer read => answer = true → between read)
    (reads : Reads Anywhere item good) (high : ∀ a read, good a read → AllFit n (exprs a) read) :
    Reads front (manyWhile more item) fun as read => AllFit n (as.flatMap exprs) read := by
  refine (Reads.manyWhile asked reads).mono fun as read each => each.allFit fun a read fits => ?_
  obtain ⟨before, behind, rfl, -, holds⟩ := fits
  exact (high a behind holds).behind

theorem oneAndMore_allFit
    (asked : Reads Anywhere more fun answer read => answer = true → between read)
    (reads : Reads Anywhere item good) (high : ∀ a read, good a read → AllFit n (exprs a) read) :
    Reads front (oneAndMore more item) fun as read =>
      (∃ a before behind, read = before ++ behind ∧ good a before) ∧
        AllFit n (as.flatMap exprs) read :=
  reads.under.bind fun a before holds => (manyWhile_allFit asked reads high).bind
    fun as behind others => .pure ⟨⟨a, before, _, rfl, holds⟩, by
      rw [List.append_nil]
      exact (high a before holds).append others⟩

end

theorem manyWhile_fits
    (asked : Reads Anywhere more fun answer read => answer = true → between read)
    (reads : Reads Anywhere item (Fits n)) : Reads front (manyWhile more item) (AllFit n) :=
  (manyWhile_allFit asked reads fun _ _ => Fits.single).mono fun es _ high => by
    rwa [List.flatMap_singleton'] at high

theorem oneAndMore_fits
    (asked : Reads Anywhere more fun answer read => answer = true → between read)
    (reads : Reads Anywhere item (Fits n)) :
    Reads front (oneAndMore more item) fun es read => read ≠ [] ∧ AllFit n es read := by
  refine (oneAndMore_allFit asked reads fun _ _ => Fits.single).mono fun es read listed => ?_
  obtain ⟨⟨first, before, behind, rfl, fits⟩, high⟩ := listed
  rw [List.flatMap_singleton'] at high
  exact ⟨by simp [fits.1], high⟩

/-! ### Lists of expressions -/

theorem namedTest_fits (sound : level.Fits n) : Reads front (namedTest level) (Fits (n + 1)) := by
  have plain : ∀ {front}, Reads front level.test (Fits (n + 1)) :=
    sound.test.under.mono fun _ _ fits => fits.up (Nat.le_succ n)
  refine .peek fun l => ?_
  cases l with
  | name text =>
    refine .peekSecond fun second => .either (fun bound => .skipTwo ?_ ?_ ?_) fun _ => plain
    · rintro us ⟨⟨-, first⟩, -⟩
      rw [first]
      exact Lexeme.noConfusion
    · rintro us ⟨-, same⟩
      simp only [Bool.and_eq_true, beq_iff_eq] at bound
      rw [same, bound.2]
      exact Lexeme.noConfusion
    · refine fun t t' => sound.test.bind fun e read ⟨_, high⟩ => .pure ⟨by simp, ?_⟩
      simp only [Expr.height, weight_cons, List.append_nil]
      omega
  | _ => exact plain

theorem starOr_fits (sound : level.Fits n) (low : n + 1 ≤ m) (reads : Reads Anywhere plain (Fits m)) :
    Reads front (starOr level plain) (Fits m) := by
  refine .eat eats_eatOp (fun t star => ?_) reads.under
  refine (sound.again .arithmetic).bind fun e read ⟨_, high⟩ => .pure ⟨by simp, ?_⟩
  have mark : reach + weight read ≤ weight (t :: read) := reach_le_weight star (by decide)
  simp only [Expr.height, List.append_nil]
  omega

theorem tupleOf_fits (reads : Reads Anywhere item (Fits n)) :
    Reads front (tupleOf item) (Fits (n + 1)) := by
  refine reads.under.bind fun first read fits => .ask looks_isOp ?_ (.pure ?_)
  · refine (manyWhile_fits (reads_eatOp_and looks_startsExpression) reads).bind
      fun others behind high => .pure ⟨by simp [fits.1], ?_⟩
    have := fits.2
    simp only [AllFit, Expr.height, heightAll, weight_append, List.append_nil] at high ⊢
    omega
  · rw [List.append_nil]
    exact fits.up (Nat.le_succ n)

theorem testList_fits (sound : level.Fits n) : Reads front (testList level) (Fits (n + 2)) :=
  tupleOf_fits (starOr_fits sound (Nat.le_refl _)
    (sound.test.mono fun _ _ fits => fits.up (Nat.le_succ n)))

theorem targetList_fits (sound : level.Fits n) :
    Reads front (targetList level) (Fits (n + reach + 1)) :=
  tupleOf_fits (starOr_fits sound (by simp [reach]) (sound.again .arithmetic))

theorem yieldExpr_fits (sound : level.Fits n)
    (stands : ∀ us, front us → headLexeme us = .name "yield") :
    Reads front (yieldExpr level) (Fits (n + 3)) := by
  refine .skip (fun us here => ?_) fun t _ => .under <| .eat eats_eatWord (fun t' _ => ?_)
    (.ask looks_startsExpression ?_ (.pure ?_))
  · rw [stands us here]
    exact Lexeme.noConfusion
  · refine sound.test.bind fun e read ⟨_, high⟩ => .pure ⟨by simp, ?_⟩
    simp only [Expr.height, heightAll, weight_cons, List.append_nil]
    omega
  · refine (testList_fits sound).bind fun e read ⟨_, high⟩ => .pure ⟨by simp, ?_⟩
    simp only [Expr.height, heightAll, weight_cons, List.append_nil]
    omega
  · exact ⟨by simp, by simp [Expr.height, heightAll]; omega⟩

theorem yieldOrTestList_fits (sound : level.Fits n) :
    Reads front (yieldOrTestList level) (Fits (n + 3)) :=
  .atWord (yieldExpr_fits sound fun _ => And.right)
    ((testList_fits sound).mono fun _ _ fits => fits.up (Nat.le_succ _))

/-! ### Comprehensions, arguments and subscripts -/

/-- The same for a clause of a comprehension. -/
def Generator.Fits (n : Nat) (g : Generator) (read : List Token) : Prop :=
  read ≠ [] ∧ g.height ≤ n + weight read

theorem looks_atGenerator : Looks atGenerator :=
  looks_isWord.ask looks_pure (looks_isWord.ask looks_peekSecond looks_pure)

theorem generator_fits (sound : level.Fits n) :
    Reads front (generator level) (Generator.Fits (n + reach + 1)) := by
  refine eats_eatWord.reads.bind fun _ r₀ _ => Reads.expectWord.bind fun _ r₁ ⟨t, same, _⟩ =>
    (targetList_fits sound).bind fun target r₂ ⟨_, high⟩ => Reads.expectWord.bind fun _ r₃ _ =>
      (sound.again .disjunction).bind fun source r₄ ⟨_, high'⟩ =>
        (manyWhile_fits eats_eatWord.asked (sound.again .disjunction)).bind
          fun conditions r₅ all => .pure ⟨by simp [same], ?_⟩
  simp only [AllFit, Generator.height, weight_append, List.append_nil] at all ⊢
  omega

theorem heightClauses_le {good : Generator → List Token → Prop} {gs : List Generator}
    (each : Each good gs read) (high : ∀ g read, good g read → g.height ≤ n + weight read) :
    heightClauses gs ≤ n + weight read := by
  induction each with
  | nil => exact Nat.zero_le _
  | cons first _ ih =>
    have := high _ _ first
    rw [heightClauses, weight_append]
    omega

theorem comprehensionOf_fits (sound : level.Fits n) :
    Reads front (comprehensionOf level es) fun e read =>
      read ≠ [] ∧ e.height ≤ max (heightAll es) (n + reach + 1 + weight read) + 1 := by
  refine (generator_fits sound).bind fun first r₁ fits =>
    (Reads.manyWhile looks_atGenerator.asked (generator_fits sound)).bind
      fun others r₂ each => .pure ⟨by simp [fits.1], ?_⟩
  have high := fits.2
  have all := heightClauses_le (n := n + reach + 1) each fun g read fits => by
    obtain ⟨before, behind, rfl, -, -, high⟩ := fits
    rw [weight_append]
    omega
  simp only [Expr.height, weight_append, List.append_nil]
  omega

theorem argument_fits (sound : level.Fits n) :
    Reads front (argument level) (Fits (n + reach + 2)) := by
  have plain := sound.test.mono fun _ _ fits => fits.up (Nat.le_add_right n (reach + 2))
  refine .eat eats_eatOneOf (fun t _ => plain.mono fun e read fits => ⟨by simp, ?_⟩)
    (.peek fun l => .peekSecond fun second => .either (fun bound => ?_) fun _ => ?_)
  · have := fits.2
    rw [weight_cons]
    omega
  · refine .skipTwo ?_ ?_ fun t t' => plain.mono fun e read fits => ⟨by simp, ?_⟩
    · rintro us ⟨⟨-, first⟩, -⟩ last
      rw [first.symm.trans last] at bound
      cases bound
    · rintro us ⟨-, same⟩ last
      simp only [Bool.and_eq_true, beq_iff_eq] at bound
      cases bound.2.symm.trans (same.symm.trans last)
    · have := fits.2
      simp only [weight_cons]
      omega
  · refine (namedTest_fits sound).bind fun value r₁ fits => .ask looks_atGenerator ?_ (.pure ?_)
    · refine (comprehensionOf_fits sound).mono fun e r₂ ⟨_, high⟩ => ⟨by simp [fits.1], ?_⟩
      have := fits.2
      simp only [heightAll, weight_append] at high ⊢
      omega
    · rw [List.append_nil]
      exact fits.up (by omega)

theorem commaSeparated_fits {close : String} (reads : Reads Anywhere item (Fits n)) :
    Reads front (commaSeparated (isOp close) item) (AllFit n) :=
  (oneAndMore_fits (reads_eatOp_and (looks_not looks_isOp)) reads).mono fun _ _ => And.right

theorem arguments_fits (sound : level.Fits n) :
    Reads front (arguments level) (AllFit (n + reach + 2)) :=
  .look looks_isOp fun _ => .join (AllFit (n + reach + 2))
    (fun _ further => .either (fun _ => .nothing .nil further)
      fun _ => (commaSeparated_fits (argument_fits sound)).bind further)
    fun _ _ high => Reads.expectOp.bind fun _ _ _ => .pure high.grow

theorem subscriptItem_fits (sound : level.Fits n) :
    Reads front (subscriptItem level) (AllFit (n + 1)) := by
  have bound : Reads Anywhere
      (do if ← isOneOf ["]", ","] then return [] else return [← level.test]) (AllFit (n + 1)) :=
    .ask looks_isOneOf (.pure .nil) <| sound.test.bind fun e read fits => .pure <| by
      rw [List.append_nil]
      exact (fits.up (Nat.le_succ n)).single
  have index : Reads front (starOr level (namedTest level)) (Fits (n + 1)) :=
    starOr_fits sound (Nat.le_refl _) (namedTest_fits sound)
  refine .look looks_isOp fun _ => .join (AllFit (n + 1))
    (fun _ further => .either (fun _ => .nothing .nil further)
      fun _ => .single index (fun _ _ => Fits.single) further) fun lower _ low => ?_
  refine .eat eats_eatOp (fun t _ => ?_) (.pure (by rwa [List.append_nil]))
  refine .look looks_isOp fun _ => .join (AllFit (n + 1))
    (fun _ further => .either (fun _ => .nothing .nil further) fun _ => bound.bind further)
    fun upper _ high => ?_
  refine .under <| eats_eatOp.reads.bind fun _ _ _ => .join (AllFit (n + 1))
    (fun _ further => .either (fun _ => bound.bind further) fun _ => .nothing .nil further)
    fun stride _ steps => .pure ?_
  unfold AllFit at low high steps ⊢
  simp only [heightAll_append, weight_cons, weight_append, List.append_nil]
  omega

theorem commaSeparated_allFit {α : Type} {exprs : α → List Expr} {item : Reader α} {close : String}
    (reads : Reads Anywhere item fun a read => AllFit n (exprs a) read) :
    Reads front (commaSeparated (isOp close) item) fun as read => AllFit n (as.flatMap exprs) read :=
  (oneAndMore_allFit (reads_eatOp_and (looks_not looks_isOp)) reads fun _ _ => id).mono
    fun _ _ => And.right

theorem subscripts_fits (sound : level.Fits n) :
    Reads front (subscripts level) (AllFit (n + 1)) :=
  (commaSeparated_allFit (subscriptItem_fits sound)).bind fun items _ high =>
    Reads.expectOp.bind fun _ _ _ => .pure (by
      rw [List.flatten_eq_flatMap]
      exact high.grow)

/-! ### Operators -/

/-- The height of what follows an atom. -/
def Trailer.height : Trailer → Nat
  | .call args => heightAll args
  | .subscript index => heightAll index
  | .member => 0

/-- A mark was passed over, and but for its weight no operand of the trailer is higher than `n`. -/
def Trailer.Fits (n : Nat) (t : Trailer) (read : List Token) : Prop :=
  reach ≤ weight read ∧ t.height ≤ n + weight read

theorem Trailer.height_apply (object : Expr) (t : Trailer) :
    (t.apply object).height = max object.height t.height + 1 := by
  cases t <;> simp [Trailer.apply, Trailer.height, Expr.height, heightAll]

theorem trailer?_fits (sound : level.Fits n) :
    Reads front (trailer? level) fun found read => ∀ t ∈ found, t.Fits (n + 2) read := by
  refine .eat eats_eatOp (fun t same => ?_) (.eat eats_eatOp (fun t same => ?_)
    (.eat eats_eatOp (fun t same => .peek fun l => ?_) (.pure nofun)))
  · refine (arguments_fits sound).bind fun args read high => .pure fun _ found => ?_
    obtain rfl := Option.some.inj found
    have mark : reach + weight read ≤ weight (t :: read) := reach_le_weight same (by decide)
    unfold AllFit at high
    refine ⟨?_, ?_⟩ <;> simp only [Trailer.height, List.append_nil] <;> omega
  · refine (subscripts_fits sound).bind fun index read high => .pure fun _ found => ?_
    obtain rfl := Option.some.inj found
    have mark : reach + weight read ≤ weight (t :: read) := reach_le_weight same (by decide)
    unfold AllFit at high
    refine ⟨?_, ?_⟩ <;> simp only [Trailer.height, List.append_nil] <;> omega
  · cases l with
    | name text =>
      refine .skip (fun us here => ?_) fun t' _ => .pure fun _ found => ?_
      · rw [here.2]
        exact Lexeme.noConfusion
      · obtain rfl := Option.some.inj found
        have mark : reach + weight [t'] ≤ weight [t, t'] := reach_le_weight same (by decide)
        exact ⟨by omega, Nat.zero_le _⟩
    | _ => exact .unexpected

theorem foldl_apply_height {trailers : List Trailer} {object : Expr}
    (each : Each (Trailer.Fits n) trailers read) (high : object.height ≤ m) (low : n + 1 ≤ m) :
    (trailers.foldl Trailer.apply object).height ≤ m + weight read := by
  induction each generalizing object m with
  | nil => exact high.trans (Nat.le_add_right ..)
  | @cons t trailers read₁ read₂ first _ ih =>
    have positive : 0 < reach := by decide
    have mark := first.1
    have := first.2
    have top : (t.apply object).height ≤ m + weight read₁ := by
      rw [Trailer.height_apply]
      omega
    rw [List.foldl_cons, weight_append, ← Nat.add_assoc]
    exact ih top (by omega)

theorem primary_fits (sound : level.Fits n) : Reads front (primary level) (Fits (n + 3)) := by
  refine sound.atom.under.bind fun atom read fits => (trailer?_fits sound).many.bind
    fun trailers behind each => .pure ⟨by simp [fits.1], ?_⟩
  have := fits.2
  rw [List.append_nil, weight_append, ← Nat.add_assoc]
  exact foldl_apply_height each (by omega) (by omega)

theorem awaited_fits (sound : level.Fits n) : Reads front (awaited level) (Fits (n + 4)) := by
  refine .eat eats_eatWord (fun t _ => (primary_fits sound).bind fun e read fits =>
    .pure ⟨by simp, ?_⟩) ((primary_fits sound).mono fun _ _ fits => fits.up (Nat.le_succ _))
  have := fits.2
  simp only [Expr.height, heightAll, weight_cons, List.append_nil]
  omega

theorem signedOr_fits (sound : level.Fits n) (low : n + 1 ≤ m)
    (reads : Reads Anywhere plain (Fits m)) : Reads front (signedOr level plain) (Fits m) := by
  refine .eat eats_eatOneOf (fun t _ => sound.signed.bind fun e read fits =>
    .pure ⟨by simp, ?_⟩) reads.under
  have := fits.2
  simp only [Expr.height, heightAll, weight_cons, List.append_nil]
  omega

/-- An exponent stands behind a mark, which makes up for the operation that it adds. -/
theorem powers_height {exponents : List Expr} (high : e.height ≤ m) (low : n ≤ m)
    (each : Each (fun e read => e.height + 1 ≤ n + weight read ∧ 1 ≤ weight read) exponents read) :
    (powers e exponents).height ≤ m + 1 + weight read := by
  induction each generalizing e m with
  | nil => exact high.trans (by omega)
  | @cons exponent others read₁ read₂ first _ ih =>
    have top : (powers exponent others).height ≤ m + weight read₁ - 1 + 1 + weight read₂ :=
      ih (by omega) (by omega)
    simp only [powers, Expr.height, heightAll, weight_append]
    omega

theorem factor_fits (sound : level.Fits n) : Reads front (factor level) (Fits (n + 6)) := by
  have exponent : Reads Anywhere (signedOr level (awaited level)) (Fits (n + 4)) :=
    signedOr_fits sound (by omega) (awaited_fits sound)
  refine signedOr_fits sound (by omega) <| (awaited_fits sound).bind fun base read fits =>
    (Reads.manyWhile eats_eatOp.asked exponent).bind fun exponents behind each =>
      .pure ⟨by simp [fits.1], ?_⟩
  have := fits.2
  have paid := each.imp fun e read fits => by
    show e.height + 1 ≤ n + 5 + weight read ∧ 1 ≤ weight read
    obtain ⟨before, behind, rfl, ⟨t, rfl, same⟩, -, high⟩ := fits
    have mark : reach + weight behind ≤ weight ([t] ++ behind) := reach_le_weight same (by decide)
    have positive : 0 < reach := by decide
    omega
  have top : (powers base exponents).height ≤ n + 5 + weight read + 1 + weight behind :=
    powers_height (by omega) (by omega) paid
  rw [List.append_nil, weight_append]
  omega

/-- Operands between operators, whatever these are. -/
theorem operands_fits (asked : Reads Anywhere more fun answer read => answer = true → between read)
    (reads : Reads Anywhere item (Fits n)) :
    Reads front (do return .combine (← oneAndMore more item)) (Fits (n + 1)) := by
  refine (oneAndMore_fits asked reads).bind fun operands read ⟨passed, high⟩ =>
    .pure ⟨by simp [passed], ?_⟩
  unfold AllFit at high
  rw [List.append_nil]
  unfold Expr.combine
  split
  · simp only [heightAll] at high
    omega
  · rw [Expr.height]
    omega

theorem arithmetic_fits (sound : level.Fits n) :
    Reads front (arithmetic level) (Fits (n + 12)) := by
  have layers : ∀ (operators : List (List String)),
      Reads Anywhere (operators.foldr operatorsOver (factor level))
        (Fits (n + 6 + operators.length)) := by
    intro operators
    induction operators with
    | nil => exact factor_fits sound
    | cons ops others ih => exact operands_fits eats_eatOneOf.asked ih
  exact (layers binaryOperators).under

theorem reads_eatComparison :
    Reads front eatComparison fun answer read => answer = true → read ≠ [] := by
  refine .eat eats_eatOneOf (fun _ _ => .pure fun _ => by simp) (.eat eats_eatWord
    (fun _ _ => .pure fun _ => by simp) (.isWord fun negated => .peekSecond fun second =>
      .either (fun bound => ?_) fun _ => ?_))
  · simp only [Bool.and_eq_true, beq_iff_eq] at bound
    refine .skipTwo ?_ ?_ fun _ _ => .pure fun _ => by simp
    · rintro us ⟨⟨-, first⟩, -⟩ last
      cases (first bound.1).symm.trans last
    · rintro us ⟨-, same⟩ last
      cases bound.2.symm.trans (same.symm.trans last)
  · exact .eat eats_eatWord (fun _ _ => eats_eatWord.reads.bind fun _ _ _ => .pure fun _ => by simp)
      (.pure nofun)

theorem comparison_fits (sound : level.Fits n) : Reads front (comparison level) (Fits (n + 13)) :=
  operands_fits reads_eatComparison (arithmetic_fits sound)

theorem negation_fits (sound : level.Fits n) : Reads front (negation level) (Fits (n + 13)) := by
  refine .eat eats_eatWord (fun t _ => sound.negated.bind fun e read fits => .pure ⟨by simp, ?_⟩)
    (comparison_fits sound)
  have := fits.2
  simp only [Expr.height, heightAll, weight_cons, List.append_nil]
  omega

theorem conjunction_fits (sound : level.Fits n) :
    Reads front (conjunction level) (Fits (n + 14)) :=
  operands_fits eats_eatWord.asked (negation_fits sound)

theorem disjunction_fits (sound : level.Fits n) :
    Reads front (disjunction level) (Fits (n + 15)) :=
  operands_fits eats_eatWord.asked (conjunction_fits sound)

/-! ### Functions and conditionals -/

theorem annotation_fits {annotated : Bool} (sound : level.Fits n) :
    Reads front ( annotation level annotated) (AllFit n) :=
  .either (fun _ => .eat eats_eatOp (fun t _ => sound.test.bind fun e read fits => .pure (by
    have := fits.2
    simp only [AllFit, heightAll, weight_cons, List.append_nil]
    omega)) (.pure .nil)) fun _ => .pure .nil

theorem parameter_fits {annotated : Bool} (sound : level.Fits n) :
    Reads front (parameter level annotated) fun p read => AllFit n p.reads read := by
  refine .eat eats_eatOp (fun _ _ => .pure .nil) (.eat eats_eatOneOf (fun t _ => .peek fun l => ?_) ?_)
  · cases l with
    | name =>
      refine Reads.expectName.bind fun _ _ _ => (annotation_fits sound).bind fun _ _ high => .pure ?_
      unfold AllFit at high ⊢
      simp only [weight_cons, weight_append, List.append_nil]
      omega
    | _ => exact .pure .nil
  · refine Reads.expectName.bind fun _ _ _ => (annotation_fits sound).bind fun note _ high =>
      eats_eatOp.reads.bind fun _ _ _ => .join (AllFit n)
        (fun _ further => .either
          (fun _ => .single sound.test (fun _ _ fits => fits.single) further)
          fun _ => .nothing .nil further)
        fun default _ high' => .pure ?_
    unfold AllFit at high high' ⊢
    simp only [heightAll_append, weight_append, List.append_nil]
    omega

theorem parameters_fits {close : String} {annotated : Bool} (sound : level.Fits n) :
    Reads front (parameters level close annotated) fun ps read =>
      AllFit n (parameterReads ps) read :=
  .ask looks_isOp (.pure .nil) (commaSeparated_allFit (parameter_fits sound))

theorem lambdaExpr_fits (sound : level.Fits n)
    (stands : ∀ us, front us → headLexeme us = .name "lambda") :
    Reads front (lambdaExpr level) (Fits (n + 1)) := by
  refine .skip (fun us here => ?_) fun t _ => (parameters_fits sound).bind fun ps r₁ high =>
    Reads.expectOp.bind fun _ r₂ _ => sound.test.bind fun body r₃ fits => .pure ⟨by simp, ?_⟩
  · rw [stands us here]
    exact Lexeme.noConfusion
  · have := fits.2
    unfold AllFit at high
    simp only [Expr.height, weight_cons, weight_append, List.append_nil]
    omega

theorem conditional_fits (sound : level.Fits n) :
    Reads front (conditional level) (Fits (n + 16)) := by
  refine .atWord ((lambdaExpr_fits sound fun _ => And.right).mono fun _ _ fits => fits.up (by omega))
    ((disjunction_fits sound).bind fun body r₁ fits => .eat eats_eatWord (fun t _ => ?_) (.pure ?_))
  · refine (disjunction_fits sound).bind fun condition r₂ fits' => Reads.expectWord.bind
      fun _ r₃ _ => sound.test.bind fun alternative r₄ fits'' => .pure ⟨by simp, ?_⟩
    have := fits.2
    have := fits'.2
    have := fits''.2
    simp only [Expr.height, heightAll, weight_cons, weight_append, List.append_nil]
    omega
  · rw [List.append_nil]
    exact fits.up (by omega)

/-! ### Atoms -/

theorem sequenceTail_fits {first : Expr} {close : String} (sound : level.Fits n) :
    Reads front (sequenceTail level first close) fun es read =>
      ∃ others, es = first :: others ∧ AllFit (n + 1) others read :=
  (manyWhile_fits (reads_eatOp_and (looks_not looks_isOp))
    (starOr_fits sound (Nat.le_refl _) (namedTest_fits sound))).bind fun others _ high =>
      Reads.expectOp.bind fun _ _ _ => .pure ⟨others, rfl, high.grow⟩

/-- The expression is no higher than `n` and what the level comes back to, but for the weight. -/
abbrev Enclosed (n : Nat) (e : Expr) (read : List Token) : Prop :=
  e.height ≤ n + reach + 2 + weight read

/-- A comprehension and the mark that closes it. -/
theorem closedComprehension_fits {close : String} {first : Expr} {before : List Token}
    (sound : level.Fits n) (low : m ≤ n + 2) (fits : Fits m first before) :
    Reads front (do let e ← comprehensionOf level [first]; expectOp close; return e)
      fun e read => Enclosed n e (before ++ read) := by
  refine (comprehensionOf_fits sound).bind fun e read ⟨_, high⟩ => Reads.expectOp.bind
    fun _ _ _ => .pure ?_
  have := fits.2
  have positive : 2 ≤ reach := by decide
  simp only [Enclosed, heightAll, weight_append, List.append_nil] at high ⊢
  omega

theorem parenthesized_fits (sound : level.Fits n) :
    Reads front (parenthesized level) (Enclosed n) := by
  have positive : 2 ≤ reach := by decide
  refine .eat eats_eatOp (fun _ _ => .pure ?_) (.atWord ?_ ?_)
  · simp only [Enclosed, Expr.height, heightAll]
    omega
  · refine (yieldExpr_fits sound fun _ => And.right).bind fun inner _ fits => Reads.expectOp.bind
      fun _ _ _ => .pure ?_
    have := fits.2
    simp only [Enclosed, weight_append, List.append_nil]
    omega
  · refine (starOr_fits sound (Nat.le_refl _) (namedTest_fits sound)).bind fun first _ fits =>
      .ask looks_atGenerator (closedComprehension_fits sound (by omega) fits)
        (.ask looks_isOp ?_ ?_)
    · refine (sequenceTail_fits sound).bind fun items _ ⟨others, same, high⟩ => .pure ?_
      have := fits.2
      unfold AllFit at high
      simp only [Enclosed, same, Expr.height, heightAll, weight_append, List.append_nil]
      omega
    · refine Reads.expectOp.bind fun _ _ _ => .pure ?_
      have := fits.2
      simp only [Enclosed, weight_append, List.append_nil]
      omega

theorem bracketed_fits (sound : level.Fits n) : Reads front (bracketed level) (Enclosed n) := by
  have positive : 2 ≤ reach := by decide
  refine .eat eats_eatOp (fun _ _ => .pure ?_) ((starOr_fits sound (Nat.le_refl _)
    (namedTest_fits sound)).bind fun first _ fits => .ask looks_atGenerator
      (closedComprehension_fits sound (by omega) fits) ?_)
  · simp only [Enclosed, Expr.height, heightAll]
    omega
  · refine (sequenceTail_fits sound).bind fun items _ ⟨others, same, high⟩ => .pure ?_
    have := fits.2
    unfold AllFit at high
    simp only [Enclosed, same, Expr.height, heightAll, weight_append, List.append_nil]
    omega

theorem braceEntry_fits (sound : level.Fits n) : Reads front (braceEntry level) (Fits (n + 2)) := by
  refine .eat eats_eatOp (fun t same => (sound.again .arithmetic).mono fun e read fits =>
    ⟨by simp, ?_⟩) ((starOr_fits sound (Nat.le_refl _) (namedTest_fits sound)).bind
      fun key _ fits => .eat eats_eatOp (fun t _ => ?_) (.pure ?_))
  · have mark : reach + weight read ≤ weight (t :: read) := reach_le_weight same (by decide)
    have := fits.2
    omega
  · refine sound.test.bind fun value _ fits' => .pure ⟨by simp, ?_⟩
    have := fits.2
    have := fits'.2
    simp only [Expr.height, heightAll, weight_cons, weight_append, List.append_nil]
    omega
  · rw [List.append_nil]
    exact fits.up (by omega)

theorem braced_fits (sound : level.Fits n) : Reads front (braced level) (Enclosed n) := by
  have positive : 2 ≤ reach := by decide
  refine .eat eats_eatOp (fun _ _ => .pure ?_) ((braceEntry_fits sound).bind fun first _ fits =>
    .ask looks_atGenerator (closedComprehension_fits sound (Nat.le_refl _) fits) ?_)
  · simp only [Enclosed, Expr.height, heightAll]
    omega
  · refine (manyWhile_fits (reads_eatOp_and (looks_not looks_isOp)) (braceEntry_fits sound)).bind
      fun others _ high => Reads.expectOp.bind fun _ _ _ => .pure ?_
    have := fits.2
    unfold AllFit at high
    simp only [Enclosed, Expr.height, heightAll, weight_append, List.append_nil]
    omega

theorem fieldValue_fits {p : Text.Position} {field : String} (sound : level.Fits n)
    (read : fieldValue level p field = .ok e) :
    e.height ≤ n + 2 + reach * marks field.toList := by
  unfold fieldValue at read
  split at read
  · cases read
  · next ts lexed =>
    split at read
    · cases read
    · next value rest one =>
      obtain ⟨-, rfl⟩ := grant_eq_ok_iff.mp read
      have reads : Reads Anywhere (testList level) (Fits (n + 2)) := testList_fits sound
      obtain ⟨passed, rfl, -, -, high⟩ := reads ts value rest trivial one
      have := weight_le_of_tokens lexed
      rw [weight_append] at this
      omega

theorem fieldValues_fit {p : Text.Position} {fields : List String} (sound : level.Fits n)
    (read : fields.mapM (fieldValue level p) = .ok es) :
    heightAll es ≤ n + 2 + reach * (Lexeme.string fields).marks := by
  induction fields generalizing es with
  | nil =>
    obtain ⟨⟩ := read
    exact Nat.zero_le _
  | cons field fields ih =>
    rw [List.mapM_cons] at read
    obtain ⟨e, one, read⟩ := bind_eq_ok_iff.mp read
    obtain ⟨es, others, read⟩ := bind_eq_ok_iff.mp read
    obtain ⟨⟩ := read
    have first := fieldValue_fits sound one
    have all := ih others
    simp only [heightAll, Lexeme.marks, List.flatMap_cons, marks_append, Nat.mul_add] at all ⊢
    omega

theorem stringFields_fit {p : Text.Position} {fields : List String} (sound : level.Fits n) :
    Reads (fun us => front us ∧ headLexeme us = .string fields)
      (do
        advance
        return some (← (fields.mapM (fieldValue level p) : Except SyntaxError (List Expr))))
      fun found read => ∃ es, found = some es ∧ read ≠ [] ∧ AllFit (n + 2) es read := by
  refine .skip (fun us here => ?_) fun t _ =>
    .given (fun us here => show t.lexeme = .string fields from here.2) fun same => ?_
  · rw [here.2]
    exact Lexeme.noConfusion
  · refine Reads.lift.bind fun es _ read => .pure ⟨es, rfl, by simp, ?_⟩
    have high := fieldValues_fit sound read
    rw [← same] at high
    simp only [AllFit, weight_cons]
    omega

theorem stringFields?_fits {p : Text.Position} (sound : level.Fits n) :
    Reads front (stringFields? level p) fun found read =>
      ∀ es ∈ found, read ≠ [] ∧ AllFit (n + 2) es read := by
  refine .peek fun l => ?_
  cases l with
  | string fields =>
    refine (stringFields_fit sound).mono fun found read ⟨es, same, fits⟩ es' here => ?_
    obtain rfl := Option.some.inj (same.symm.trans here)
    exact fits
  | _ => exact .pure nofun

/-- What stands behind an opening bracket has its mark. -/
theorem Reads.bracket {op : String} (same : t.lexeme = .op op) (mark : 0 < marks op.toList)
    (reads : Reads Anywhere plain (Enclosed n)) :
    Reads Anywhere plain fun e read => Fits (n + 3) e (t :: read) :=
  reads.mono fun e read high => by
    have mark : reach + weight read ≤ weight (t :: read) := reach_le_weight same mark
    exact ⟨by simp, by omega⟩

theorem plainAtom_fits (sound : level.Fits n) : Reads front (plainAtom level) (Fits (n + 3)) := by
  have solid : ∀ {l : Lexeme} (us : List Token), l ≠ .endOfInput →
      front us ∧ headLexeme us = l → headLexeme us ≠ .endOfInput :=
    fun us other here last => other (here.2.symm.trans last)
  have leaf : ∀ {l : Lexeme} {e : Expr}, l ≠ .endOfInput → e.height ≤ 3 →
      Reads (fun us => front us ∧ headLexeme us = l) (do advance; return e) (Fits (n + 3)) :=
    fun other low => .skip (fun us => solid us other) fun t _ => .pure ⟨by simp, by omega⟩
  refine .position fun p => .peek fun l => ?_
  split
  · exact .skip (fun us => solid us nofun) fun t _ =>
      .given (fun us here => show t.lexeme = .op "(" from here.2) fun same =>
        .under <| .bracket same (by decide) (parenthesized_fits sound)
  · exact .skip (fun us => solid us nofun) fun t _ =>
      .given (fun us here => show t.lexeme = .op "[" from here.2) fun same =>
        .under <| .bracket same (by decide) (bracketed_fits sound)
  · exact .skip (fun us => solid us nofun) fun t _ =>
      .given (fun us here => show t.lexeme = .op "\x7b" from here.2) fun same =>
        .under <| .bracket same (by decide) (braced_fits sound)
  · exact leaf nofun (by simp [Expr.height, heightAll])
  · exact leaf nofun (by simp [Expr.height, heightAll])
  · refine .either (fun _ => leaf nofun (by simp [Expr.height, heightAll])) fun _ =>
      .either (fun _ => .unexpected) fun _ => leaf nofun (by simp [Expr.height])
  · next fields =>
    refine (Reads.manyFrom (.peek fun l => .given (fun us here => here.2.symm.trans here.1.2) ?_)
      (stringFields?_fits sound)).bind fun all read listed => .pure ?_
    · rintro rfl
      exact stringFields_fit sound
    · obtain ⟨es, others, r₁, r₂, rfl, rfl, ⟨passed, high⟩, each⟩ := listed
      refine ⟨by simp [passed], ?_⟩
      have all : AllFit (n + 2) (es ++ others.flatten) (r₁ ++ r₂) := by
        rw [List.flatten_eq_flatMap]
        exact high.append (each.allFit fun _ _ => And.right)
      unfold AllFit at all
      simp only [Expr.height, List.flatten_cons, List.append_nil]
      omega
  · exact .unexpected

/-! ### Levels -/

theorem Level.Fits.over (inner : rules.Fits n) : (Level.over rules).Fits n where
  toFits := inner
  again := by
    refine fun operand => .recursive (fun again reads operand => ?_) operand
    have level : Level.Fits n { rules with again } := ⟨inner, reads⟩
    cases operand with
    | disjunction =>
      exact (disjunction_fits level).mono fun _ _ fits => fits.up (Nat.add_le_add_left (by decide) n)
    | arithmetic =>
      exact (arithmetic_fits level).mono fun _ _ fits => fits.up (Nat.add_le_add_left (by decide) n)

/-- Every level adds a fixed height. -/
theorem nested_fits (n : Nat) : (nested n).Fits (reach * n) := by
  induction n with
  | zero => exact ⟨.fail, .fail, .fail, .fail⟩
  | succ n ih =>
    have level := Level.Fits.over ih
    have higher : ∀ {k : Nat}, k ≤ reach → ∀ (e : Expr) (read : List Token),
        Fits (reach * n + k) e read → Fits (reach * (n + 1)) e read :=
      fun low _ _ fits => fits.up (Nat.add_le_add_left low _)
    exact ⟨(conditional_fits level).mono (higher (by decide)),
      (negation_fits level).mono (higher (by decide)),
      (factor_fits level).mono (higher (by decide)),
      (plainAtom_fits level).mono (higher (by decide))⟩

theorem Level.Fits.withRoom (n : Nat) : (Level.withRoom n).Fits (reach * n) :=
  .over (nested_fits n)

end ConceptForest.Script
