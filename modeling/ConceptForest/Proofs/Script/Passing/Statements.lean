import ConceptForest.Proofs.Script.Passing.Expressions
import ConceptForest.Script.Stmt.Parser

/-!
What the rules for statements pass over, and how high the expressions in them are.

There is one lemma for each rule of the grammar, in the order of the rules, as for expressions. A
statement passes over at least one token, and one bound holds for its expressions and for those in
its blocks (`Suite.Fits`). Blocks are closed by induction on the room that is left.
-/

namespace ConceptForest.Script

open Reader

/-- Something was passed over, and but for its weight no expression is higher than `m`. -/
def Written (m : Nat) (statements : List Stmt) (read : List Token) : Prop :=
  read ≠ [] ∧ AllFit m (exprsAll statements) read

/-- The rules for statements write lines with expressions up to a height. -/
structure Suite.Fits (m : Nat) (suite : Suite) : Prop where
  level : ∃ n, n + reach + 3 ≤ m ∧ suite.level.Fits n
  block : Reads Anywhere suite.block (Written m)

variable {α β : Type} {n m : Nat} {level : Level} {suite : Suite} {rule : Reader Expr} {e : Expr}
  {es : List Expr} {statements others : List Stmt} {t : Token} {read more : List Token}
  {front : List Token → Prop}

/-! ### The expressions of statements -/

theorem exprsAll_eq_flatMap (statements : List Stmt) :
    exprsAll statements = statements.flatMap Stmt.exprs := by
  induction statements with
  | nil => rfl
  | cons s statements ih => rw [exprsAll, ih, List.flatMap_cons]

theorem exprsAll_append : exprsAll (statements ++ others) = exprsAll statements ++ exprsAll others := by
  rw [exprsAll_eq_flatMap, exprsAll_eq_flatMap, exprsAll_eq_flatMap, List.flatMap_append]

theorem exprsAll_flatten (parts : List (List Stmt)) :
    exprsAll parts.flatten = parts.flatMap exprsAll := by
  induction parts with
  | nil => rfl
  | cons part parts ih => rw [List.flatten_cons, exprsAll_append, ih, List.flatMap_cons]

theorem heightAll_le_iff : heightAll es ≤ n ↔ ∀ e ∈ es, e.height ≤ n := by
  induction es with
  | nil => simp [heightAll]
  | cons e es ih => rw [heightAll, Nat.max_le, ih, List.forall_mem_cons]

theorem AllFit.lines (fits : AllFit m (exprsAll statements) read)
    (fits' : AllFit m (exprsAll others) more) :
    AllFit m (exprsAll (statements ++ others)) (read ++ more) := by
  rw [exprsAll_append]
  exact fits.append fits'

/-- A line behind a token of its own. -/
theorem AllFit.behindToken (fits : AllFit m (exprsAll statements) read) :
    Written m statements (t :: read) :=
  ⟨List.cons_ne_nil _ _, fits.cons⟩

theorem Written.followed (fits : Written m statements read) (fits' : AllFit m (exprsAll others) more) :
    Written m (statements ++ others) (read ++ more) :=
  ⟨List.append_ne_nil_of_left_ne_nil fits.1 _, fits.2.lines fits'⟩

theorem Written.grow (fits : Written m statements read) : Written m statements (read ++ more) :=
  ⟨List.append_ne_nil_of_left_ne_nil fits.1 _, fits.2.grow⟩

theorem Written.single {s : Stmt} (fits : Written m [s] read) : AllFit m s.exprs read := by
  have high := fits.2
  rwa [exprsAll, exprsAll, List.append_nil] at high

section

variable {asked : Reader Bool} {between : List Token → Prop}
  (asks : Reads Anywhere asked fun answer read => answer = true → between read)

include asks

/-- Written that follow each other. -/
theorem oneAndMore_lines {item : Reader (List Stmt)} (reads : Reads Anywhere item (Written m)) :
    Reads front (oneAndMore asked item) fun parts read => Written m parts.flatten read := by
  refine (oneAndMore_allFit asks reads fun _ _ => And.right).mono fun parts read listed => ?_
  obtain ⟨⟨first, before, behind, rfl, fits⟩, high⟩ := listed
  exact ⟨List.append_ne_nil_of_left_ne_nil fits.1 _, exprsAll_flatten parts ▸ high⟩

/-- Statements that follow each other. -/
theorem oneAndMore_statements {item : Reader Stmt}
    (reads : Reads Anywhere item fun s read => Written m [s] read) :
    Reads front (oneAndMore asked item) (Written m) := by
  refine (oneAndMore_allFit asks reads fun _ _ => Written.single).mono fun statements read listed => ?_
  obtain ⟨⟨first, before, behind, rfl, fits⟩, high⟩ := listed
  exact ⟨List.append_ne_nil_of_left_ne_nil fits.1 _, exprsAll_eq_flatMap statements ▸ high⟩

theorem manyWhile_statements {item : Reader Stmt}
    (reads : Reads Anywhere item fun s read => Written m [s] read) :
    Reads front (manyWhile asked item) fun ss read => AllFit m (exprsAll ss) read :=
  (manyWhile_allFit asks reads fun _ _ => Written.single).mono fun ss _ high =>
    exprsAll_eq_flatMap ss ▸ high

theorem manyWhile_lines {item : Reader (List Stmt)} (reads : Reads Anywhere item (Written m)) :
    Reads front (manyWhile asked item) fun parts read => AllFit m (exprsAll parts.flatten) read :=
  (manyWhile_allFit asks reads fun _ _ => And.right).mono fun parts _ high =>
    exprsAll_flatten parts ▸ high

end

/-! ### Uses of expressions -/

/-- The use of an expression passes over nothing. -/
def Uses (e : Expr) (use : Reader Stmt) : Prop :=
  ∀ {front}, Reads front use fun s read => read = [] ∧ s.exprs = [e]

theorem uses_reading : Uses e (reading e) :=
  .either (fun _ => .pure ⟨rfl, by simp [Stmt.exprs]⟩) fun _ => .fail

theorem uses_assigning : Uses e (assigning e) :=
  .either (fun _ => .pure ⟨rfl, by simp [Stmt.exprs]⟩) fun _ => .fail

theorem uses_augmenting : Uses e (augmenting e) := by
  intro front
  unfold augmenting
  split
  · exact .pure ⟨rfl, by simp [Stmt.exprs]⟩
  · exact .fail

theorem uses_deleting : Uses e (deleting e) := by
  intro front
  unfold deleting
  split
  · exact .pure ⟨rfl, by simp [Stmt.exprs]⟩
  · exact .fail

theorem Fits.used {s : Stmt} (fits : Fits m e read) (same : s.exprs = [e]) :
    Written m [s] read := by
  refine ⟨fits.1, ?_⟩
  rw [exprsAll, exprsAll, same]
  exact fits.single

/-- An expression that has just been read and is used at once. -/
theorem used_fits {use : Expr → Reader Stmt} (uses : ∀ e, Uses e (use e))
    (reads : Reads front rule (Fits m)) :
    Reads front (rule >>= use) fun s read => Written m [s] read :=
  reads.bind fun e read fits => (uses e).mono fun s _ ⟨quiet, same⟩ => by
    rw [quiet, List.append_nil]
    exact fits.used same

theorem evaluated_fits (reads : Reads Anywhere rule (Fits m)) :
    Reads front (evaluated rule) fun s read => Written m [s] read :=
  used_fits (fun _ => uses_reading) reads.under

/-- Of several expressions each is used in turn. -/
theorem mapM_uses {use : Expr → Reader Stmt} (uses : ∀ e, Uses e (use e)) (es : List Expr) :
    Reads front (es.mapM use) fun statements read => read = [] ∧ exprsAll statements = es := by
  induction es generalizing front with
  | nil => exact .pure ⟨rfl, rfl⟩
  | cons e es ih =>
    rw [List.mapM_cons]
    refine (uses e).bind fun s _ ⟨quiet, same⟩ => ih.bind fun ss _ ⟨quiet', same'⟩ => .pure ⟨?_, ?_⟩
    · rw [quiet, quiet']
      rfl
    · rw [exprsAll, same, same']
      rfl

/-! ### Simple statements -/

/-- What stands there is not the end of the input. -/
abbrev Solid (front : List Token → Prop) : Prop := ∀ us, front us → headLexeme us ≠ .endOfInput

theorem solid_keyword {word : String} (some : word ≠ "") :
    Solid fun us => front us ∧ (word ≠ "" → headLexeme us = .name word) :=
  fun _ here last => by cases (here.2 some).symm.trans last

theorem dottedName_fits : Reads front dottedName fun _ read => read ≠ [] :=
  Reads.expectName.bind fun _ _ some => (Reads.manyWhile eats_eatOp.asked Reads.expectName).bind
    fun _ _ _ => .pure (by simp [some])

/-- A name, and another one behind a word. -/
theorem renamed_fits {first : Reader String} (reads : Reads Anywhere first fun _ read => read ≠ []) :
    Reads front (do
      let name ← first
      if ← eatWord "as" then return .bind (← expectName) else return .bind name)
      fun s read => Written m [s] read :=
  reads.under.bind fun _ _ some => .eat eats_eatWord
    (fun _ _ => Reads.expectName.bind fun _ _ _ => .pure ⟨by simp [some], .nil⟩)
    (.pure ⟨by simp [some], .nil⟩)

theorem importModules_fits (solid : Solid front) :
    Reads front importModules (Written m) :=
  .skip solid fun _ _ => (oneAndMore_statements eats_eatOp.asked (renamed_fits dottedName_fits)).mono
    fun _ _ fits => fits.2.behindToken

theorem importNames_fits (solid : Solid front) :
    Reads front importNames (Written m) := by
  have name : Reads Anywhere importedName fun s read => Written m [s] read :=
    renamed_fits Reads.expectName
  have dots : Reads Anywhere (manyWhile (eatIf (isOneOf [".", "..."])) (pure ())) fun _ _ => True :=
    (Reads.manyWhile eats_eatOneOf.asked (.pure trivial : Reads Anywhere _ fun _ _ => True)).mono
      fun _ _ _ => trivial
  have names : Reads Anywhere (do
      expectWord "import"
      if ← eatOp "*" then return []
      else if ← eatOp "(" then
        let names ← if ← isOp ")" then pure [] else commaSeparated (isOp ")") importedName
        expectOp ")"
        return names
      else oneAndMore (eatOp ",") importedName) fun names read => AllFit m (exprsAll names) read := by
    refine Reads.expectWord.bind fun _ _ _ => .eat eats_eatOp (fun _ _ => .pure .nil)
      (.eat eats_eatOp (fun _ _ => .look looks_isOp fun _ => ?_) ?_)
    · exact .join (fun names read => AllFit m (exprsAll names) read) (fun _ further =>
        .either (fun _ => .nothing .nil further)
          fun _ => (oneAndMore_statements (reads_eatOp_and (looks_not looks_isOp)) name).bind
            fun names read fits => further names read fits.2)
        fun names _ high => Reads.expectOp.bind fun _ _ _ => .pure (AllFit.behind high.grow.cons)
    · exact (oneAndMore_statements eats_eatOp.asked name).mono fun _ _ fits => fits.2.behind
  refine .skip solid fun t _ => .under <| dots.bind fun _ _ _ => .look looks_isWord fun _ =>
    .either (fun _ => names.mono fun _ _ high => high.behind.behindToken) fun _ => ?_
  exact dottedName_fits.bind fun _ _ _ => names.mono fun _ _ high => high.behind.behind.behindToken

/-- Of several targets the last one is what the others are bound to. -/
theorem chain_fits {chain : List Expr} (fits : AllFit m chain read) :
    Reads Anywhere (do
      let value ← chain.getLast?.toList.mapM reading
      return value ++ (← chain.dropLast.mapM assigning))
      fun statements more => AllFit m (exprsAll statements) (read ++ more) := by
  refine (mapM_uses (fun _ => uses_reading) _).bind fun value _ ⟨quiet, last⟩ =>
    (mapM_uses (fun _ => uses_assigning) _).bind fun targets _ ⟨quiet', others⟩ => .pure ?_
  rw [quiet, quiet', exprsAll_append, last, others, AllFit, heightAll_le_iff]
  refine List.forall_mem_append.mpr ⟨fun e here => ?_, fun e here => ?_⟩
  all_goals refine (heightAll_le_iff.mp fits e ?_).trans (by simp)
  · exact List.mem_of_getLast? (Option.mem_toList.mp here)
  · exact List.dropLast_subset chain here

theorem expressionStatement_fits (sound : level.Fits n) (high : n + reach + 3 ≤ m) :
    Reads front (expressionStatement level) (Written m) := by
  have anything : ∀ {front}, Reads front (yieldOrTestList level) (Fits m) :=
    (yieldOrTestList_fits sound).mono fun _ _ fits => fits.up (by omega)
  have value : Reads Anywhere (evaluated (yieldOrTestList level)) fun s read => Written m [s] read :=
    evaluated_fits anything
  have annotation : Reads Anywhere (evaluated level.test) fun s read => Written m [s] read :=
    evaluated_fits (sound.test.mono fun _ _ fits => fits.up (by omega))
  refine anything.bind fun first read fits => .eat eats_eatOp (fun t _ => ?_) (.eat eats_eatOneOf
    (fun t _ => ?_) (.ask looks_isOp ?_ ?_))
  · refine annotation.bind fun note r₁ fits' => eats_eatOp.reads.bind fun _ r₂ _ => .join
      (fun ss read => AllFit m (exprsAll ss) read) (fun _ further =>
        .either (fun _ => .single value (fun _ _ => And.right) further) fun _ => .nothing .nil further)
      fun assigned r₃ high' => uses_assigning.bind fun target _ ⟨_, same⟩ =>
        .pure ⟨by simp [fits.1], ?_⟩
    exact ((fits'.2.lines high').lines (fits.used same).2).weigh (by simp; omega)
  · refine value.bind fun used r₁ fits' => uses_augmenting.bind fun target _ ⟨_, same⟩ =>
      .pure ⟨by simp [fits.1], ?_⟩
    exact (fits'.2.lines (fits.used same).2).weigh (by simp; omega)
  · refine (manyWhile_fits eats_eatOp.asked anything).bind fun others r₁ high' => ?_
    refine (chain_fits (fits.single.append high')).mono fun _ _ high => ⟨by simp [fits.1], ?_⟩
    simpa using high
  · refine uses_reading.bind fun s _ ⟨quiet, same⟩ => .pure ?_
    rw [quiet, List.append_nil, List.append_nil]
    exact fits.used same

/-- One expression that is evaluated, or two with a token between them. -/
theorem oneOrTwo_fits {question : Reader Bool} {accepts : Lexeme → Prop} (eats : Eats question accepts)
    (sound : level.Fits n) (high : n ≤ m) :
    Reads front (do
      let first ← evaluated level.test
      if ← question then return [first, ← evaluated level.test] else return [first]) (Written m) := by
  have value : ∀ {front}, Reads front (evaluated level.test) fun s read => Written m [s] read :=
    evaluated_fits (sound.test.mono fun _ _ fits => fits.up high)
  refine value.bind fun first _ fits => .eat eats (fun _ _ => value.bind fun second _ fits' =>
    .pure (fits.followed ?_)) (.pure ?_)
  · exact (fits'.2.grow).cons
  · rwa [List.append_nil]

theorem looks_atStatementEnd : Looks atStatementEnd :=
  looks_atLineEnd.ask looks_pure looks_isOp

/-- Names that are declared, with no expression among them. -/
theorem declared_fits {declare : String → Stmt} (bare : ∀ name, (declare name).exprs = []) :
    Reads front (do return (← oneAndMore (eatOp ",") expectName).map declare)
      fun statements read => AllFit m (exprsAll statements) read :=
  (Reads.oneAndMore Reads.expectName eats_eatOp.asked).bind fun names _ _ => .pure <| by
    have none : exprsAll (names.map declare) = [] := by
      simp [exprsAll_eq_flatMap, List.flatMap_map, bare]
    rw [none]
    exact .nil

theorem simpleStatement_fits (sound : level.Fits n) (high : n + reach + 3 ≤ m) :
    Reads front (simpleStatement level) (Written m) := by
  have value : Reads Anywhere (evaluated (testList level)) fun s read => Written m [s] read :=
    evaluated_fits ((testList_fits sound).mono fun _ _ fits => fits.up (by omega))
  have target : Reads Anywhere (targetList level) (Fits m) :=
    (targetList_fits sound).mono fun _ _ fits => fits.up (by omega)
  refine .keyword fun word => ?_
  split
  · exact .skip (solid_keyword (by decide)) fun _ _ => .pure ⟨by simp, .nil⟩
  · exact .skip (solid_keyword (by decide)) fun _ _ => .pure ⟨by simp, .nil⟩
  · exact .skip (solid_keyword (by decide)) fun _ _ => .pure ⟨by simp, .nil⟩
  · exact .skip (solid_keyword (by decide)) fun _ _ => .ask looks_atStatementEnd
      (.pure ⟨by simp, .nil⟩) (value.under.bind fun _ _ fits => .pure fits.2.grow.behindToken)
  · exact .skip (solid_keyword (by decide)) fun _ _ => .ask looks_atStatementEnd
      (.pure ⟨by simp, .nil⟩) ((oneOrTwo_fits eats_eatWord sound (by omega)).mono
        fun _ _ fits => fits.2.behindToken)
  · exact .skip (solid_keyword (by decide)) fun _ _ =>
      (declared_fits fun _ => by simp [Stmt.exprs]).mono fun _ _ high => high.behindToken
  · exact .skip (solid_keyword (by decide)) fun _ _ =>
      (declared_fits fun _ => by simp [Stmt.exprs]).mono fun _ _ high => high.behindToken
  · exact .skip (solid_keyword (by decide)) fun _ _ => target.under.bind fun target _ fits =>
      uses_deleting.bind fun _ _ ⟨_, same⟩ => .pure (fits.used same).2.grow.behindToken
  · exact .skip (solid_keyword (by decide)) fun _ _ =>
      (oneOrTwo_fits eats_eatOp sound (by omega)).mono fun _ _ fits => fits.2.behindToken
  · exact importModules_fits (solid_keyword (by decide))
  · exact importNames_fits (solid_keyword (by decide))
  · exact expressionStatement_fits sound high

theorem simpleLine_fits (sound : level.Fits n) (high : n + reach + 3 ≤ m) :
    Reads front (simpleLine level) (Written m) :=
  (oneAndMore_lines (reads_eatOp_and (looks_not looks_atLineEnd))
    (simpleStatement_fits sound high)).bind fun _ _ fits => Reads.expectLineEnd.bind
      fun _ _ _ => .pure fits.grow

/-! ### Compound statements -/

theorem conditionAndBlock_fits (sound : suite.Fits m) :
    Reads front (conditionAndBlock suite) (Written m) := by
  obtain ⟨n, high, level⟩ := sound.level
  exact (evaluated_fits ((namedTest_fits level).mono fun _ _ fits => fits.up (by omega))).bind
    fun _ _ fits => sound.block.bind fun _ _ fits' => .pure (fits.followed fits'.2.grow)

theorem blockBehind_fits {word : String} (sound : suite.Fits m) :
    Reads front (blockBehind suite word) fun statements read => AllFit m (exprsAll statements) read :=
  .eat eats_eatWord (fun _ _ => sound.block.mono fun _ _ fits => fits.2.cons) (.pure .nil)

/-- A name is bound to what has a body of its own. -/
theorem definition_fits {name : String} {kind : ScopeKind} {names : List String}
    (fits : AllFit m (exprsAll statements) read) :
    AllFit m (exprsAll [.bind name, .scope kind names statements]) read := by
  simpa [exprsAll, Stmt.exprs] using fits

theorem functionDefinition_fits (sound : suite.Fits m) (solid : Solid front) :
    Reads front (functionDefinition suite) (Written m) := by
  obtain ⟨n, high, level⟩ := sound.level
  have result : Reads Anywhere (evaluated suite.level.test) fun s read => Written m [s] read :=
    evaluated_fits (level.test.mono fun _ _ fits => fits.up (by omega))
  refine .skip solid fun _ _ => .under <| Reads.expectName.bind fun _ _ _ =>
    Reads.expectOp.bind fun _ _ _ => (parameters_fits level).bind fun ps _ fits =>
      Reads.expectOp.bind fun _ _ _ => (mapM_uses (fun _ => uses_reading) _).bind
        fun reads _ ⟨_, same⟩ => eats_eatOp.reads.bind fun _ _ _ => .join
          (fun ss read => AllFit m (exprsAll ss) read)
          (fun _ further => .either (fun _ => .single result (fun _ _ => And.right) further)
            fun _ => .nothing .nil further)
          fun result _ noted => sound.block.bind fun body _ under => .pure ⟨by simp, ?_⟩
  have defaults : AllFit m (exprsAll reads) _ := same ▸ fits.up (by omega)
  exact ((defaults.lines noted).lines (definition_fits under.2)).weigh (by simp; omega)

theorem classDefinition_fits (sound : suite.Fits m) (solid : Solid front) :
    Reads front (classDefinition suite) (Written m) := by
  obtain ⟨n, high, level⟩ := sound.level
  have taken : ∀ {next : List Stmt → Reader (List Stmt)} {good : List Stmt → List Token → Prop},
      (∀ ss read, AllFit m (exprsAll ss) read →
        Reads Anywhere (next ss) fun b more => good b (read ++ more)) →
      Reads Anywhere (do next (← (← arguments suite.level).mapM reading)) good := fun further =>
    (arguments_fits level).bind fun args read fits => (mapM_uses (fun _ => uses_reading) _).bind
      fun bases _ ⟨quiet, same⟩ => by
        subst quiet
        exact further bases read (same ▸ fits.up (by omega))
  refine .skip solid fun _ _ => .under <| Reads.expectName.bind fun _ _ _ =>
    eats_eatOp.reads.bind fun _ _ _ => .join (fun ss read => AllFit m (exprsAll ss) read)
      (fun _ further => .either (fun _ => taken further) fun _ => .nothing .nil further)
      fun bases _ based => sound.block.bind fun body _ under => .pure ⟨by simp, ?_⟩
  exact (based.lines (definition_fits under.2)).weigh (by simp; omega)

theorem ifStatement_fits (sound : suite.Fits m) (solid : Solid front) :
    Reads front (ifStatement suite) (Written m) :=
  .skip solid fun _ _ => (oneAndMore_lines eats_eatWord.asked (conditionAndBlock_fits sound)).bind
    fun _ _ fits => (blockBehind_fits sound).bind fun _ _ fits' =>
      .pure (fits.2.lines fits'.grow).behindToken

theorem whileStatement_fits (sound : suite.Fits m) (solid : Solid front) :
    Reads front (whileStatement suite) (Written m) :=
  .skip solid fun _ _ => (conditionAndBlock_fits sound).bind fun _ _ fits =>
    (blockBehind_fits sound).bind fun _ _ fits' => .pure (fits.2.lines fits'.grow).behindToken

theorem forStatement_fits (sound : suite.Fits m) (solid : Solid front) :
    Reads front (forStatement suite) (Written m) := by
  obtain ⟨n, high, level⟩ := sound.level
  have source : Reads Anywhere (evaluated (testList suite.level)) fun s read => Written m [s] read :=
    evaluated_fits ((testList_fits level).mono fun _ _ fits => fits.up (by omega))
  have target : Reads Anywhere (targetList suite.level) (Fits m) :=
    (targetList_fits level).mono fun _ _ fits => fits.up (by omega)
  refine .skip solid fun _ _ => target.under.bind fun target _ fits => Reads.expectWord.bind
    fun _ _ _ => source.bind fun source _ taken => uses_assigning.bind fun binding _ ⟨_, same⟩ =>
      sound.block.bind fun body _ under => (blockBehind_fits sound).bind
        fun otherwise _ behind => .pure ⟨by simp, ?_⟩
  exact (((taken.2.lines (fits.used same).2).lines under.2).lines behind).weigh (by simp; omega)

theorem handler_fits (sound : suite.Fits m) : Reads front (handler suite) (Written m) := by
  obtain ⟨n, high, level⟩ := sound.level
  have value : Reads Anywhere (evaluated suite.level.test) fun s read => Written m [s] read :=
    evaluated_fits (level.test.mono fun _ _ fits => fits.up (by omega))
  have kinds : ∀ {next : List Stmt → Reader (List Stmt)} {good : List Stmt → List Token → Prop},
      (∀ ss read, AllFit m (exprsAll ss) read →
        Reads Anywhere (next ss) fun b more => good b (read ++ more)) →
      Reads Anywhere (do
        let kind ← evaluated suite.level.test
        if ← eatWord "as" then next [kind, .bind (← expectName)] else next [kind]) good :=
    fun further => value.bind fun kind read fits => .eat eats_eatWord
      (fun t _ => Reads.expectName.bind fun name r _ => by
        have named : AllFit m (exprsAll ([kind] ++ [.bind name])) (read ++ t :: r) :=
          fits.2.lines .nil
        exact (further _ _ named).mono fun _ _ => by simp)
      (further _ _ fits.2)
  refine .under <| eats_eatOp.reads.bind fun _ _ _ => .look looks_isOp fun _ =>
    .join (fun ss read => AllFit m (exprsAll ss) read) (fun _ further =>
      .either (fun _ => .nothing .nil further) fun _ => kinds further)
      fun kind _ fits => sound.block.bind fun body _ under => .pure ⟨by simp [under.1], ?_⟩
  exact (fits.lines under.2).weigh (by simp)

theorem tryStatement_fits (sound : suite.Fits m) (solid : Solid front) :
    Reads front (tryStatement suite) (Written m) := by
  refine .skip solid fun _ _ => sound.block.under.bind fun body _ fits =>
    (manyWhile_lines eats_eatWord.asked (handler_fits sound)).bind fun handlers _ handled =>
      (blockBehind_fits sound).bind fun otherwise _ behind => .look looks_isWord fun _ =>
        (blockBehind_fits sound).bind fun final _ last => .either (fun _ => .fail) fun _ =>
          .pure ⟨by simp, ?_⟩
  exact (((fits.2.lines handled).lines behind).lines last).weigh (by simp)

theorem manager_fits (sound : suite.Fits m) : Reads front (manager suite) (Written m) := by
  obtain ⟨n, high, level⟩ := sound.level
  have value : Reads front (evaluated suite.level.test) fun s read => Written m [s] read :=
    evaluated_fits (level.test.mono fun _ _ fits => fits.up (by omega))
  have target : Reads Anywhere (starOr suite.level (suite.level.again .arithmetic)) (Fits m) :=
    starOr_fits level (by omega) ((level.again _).mono fun _ _ fits => fits.up (by omega))
  refine value.bind fun value _ fits => .eat eats_eatWord (fun _ _ => target.bind
    fun target _ fits' => uses_assigning.bind fun _ _ ⟨_, same⟩ => .pure (fits.followed ?_)) (.pure ?_)
  · exact (fits'.used same).2.grow.cons
  · rwa [List.append_nil]

theorem withStatement_fits (sound : suite.Fits m) (solid : Solid front) :
    Reads front (withStatement suite) (Written m) :=
  .skip solid fun _ _ => (oneAndMore_lines eats_eatOp.asked (manager_fits sound)).bind
    fun _ _ fits => sound.block.bind fun _ _ fits' => .pure (fits.2.lines fits'.2.grow).behindToken

theorem decorated_fits (sound : suite.Fits m) : Reads front (decorated suite) (Written m) := by
  obtain ⟨n, high, level⟩ := sound.level
  have decorator : Reads Anywhere (do
      let decorator ← evaluated (namedTest suite.level)
      expectLineEnd
      return decorator) fun s read => Written m [s] read :=
    (evaluated_fits ((namedTest_fits level).mono fun _ _ fits => fits.up (by omega))).bind
      fun _ _ fits => Reads.expectLineEnd.bind fun _ _ _ => .pure fits.grow
  refine (manyWhile_statements eats_eatOp.asked decorator).bind fun decorators _ fits =>
    eats_eatWord.reads.bind fun _ _ _ => .keyword fun word => ?_
  split
  · exact (functionDefinition_fits sound (solid_keyword (by decide))).bind fun _ _ fits' =>
      .pure ⟨by simp [fits'.1], (fits.lines fits'.2).weigh (by simp)⟩
  · exact (classDefinition_fits sound (solid_keyword (by decide))).bind fun _ _ fits' =>
      .pure ⟨by simp [fits'.1], (fits.lines fits'.2).weigh (by simp)⟩
  · exact .fail

theorem statement_fits (sound : suite.Fits m) : Reads front (statement suite) (Written m) := by
  obtain ⟨n, high, level⟩ := sound.level
  refine .peek fun l => ?_
  split
  · exact decorated_fits sound
  · exact .fail
  · exact .fail
  · refine .keyword fun word => ?_
    split
    · exact functionDefinition_fits sound (solid_keyword (by decide))
    · exact classDefinition_fits sound (solid_keyword (by decide))
    · exact ifStatement_fits sound (solid_keyword (by decide))
    · exact whileStatement_fits sound (solid_keyword (by decide))
    · exact forStatement_fits sound (solid_keyword (by decide))
    · exact tryStatement_fits sound (solid_keyword (by decide))
    · exact withStatement_fits sound (solid_keyword (by decide))
    · refine .skip (solid_keyword (by decide)) fun _ _ => .keyword fun word => ?_
      split
      · exact (functionDefinition_fits sound (solid_keyword (by decide))).mono
          fun _ _ fits => fits.2.behindToken
      · exact (forStatement_fits sound (solid_keyword (by decide))).mono fun _ _ fits => fits.2.behindToken
      · exact (withStatement_fits sound (solid_keyword (by decide))).mono fun _ _ fits => fits.2.behindToken
      · exact .unexpected
    · exact simpleLine_fits level high

/-! ### Blocks and modules -/

theorem blockItem?_fits (sound : suite.Fits m) :
    Reads front (blockItem? suite) fun found read => ∀ part ∈ found, Written m part read := by
  refine .peek fun l => ?_
  split
  · exact .skip (fun us here last => by cases here.2.symm.trans last) fun _ _ => .pure nofun
  · exact .pure nofun
  · refine .skip (fun us here last => by cases here.2.symm.trans last) fun _ _ =>
      .pure fun _ found => ?_
    obtain rfl := Option.some.inj found
    exact ⟨by simp, .nil⟩
  · refine (statement_fits sound).bind fun part read fits => .pure fun _ found => ?_
    obtain rfl := Option.some.inj found
    rwa [List.append_nil]

theorem indentedBlock_fits (sound : suite.Fits m) : Reads front (indentedBlock suite) (Written m) := by
  obtain ⟨n, high, level⟩ := sound.level
  refine Reads.expectOp.bind fun _ _ _ => .peek fun l => ?_
  split
  · refine .skip (fun us here last => by cases here.2.symm.trans last) fun _ _ => .peek fun l => ?_
    split
    · refine .skip (fun us here last => by cases here.2.symm.trans last) fun _ _ => .under <|
        (blockItem?_fits sound).many.bind fun parts _ each => .pure ⟨by simp, ?_⟩
      have lines := each.allFit fun _ _ => And.right
      rw [← exprsAll_flatten] at lines
      exact lines.weigh (by simp; omega)
    · exact .fail
  · exact (simpleLine_fits level high).mono fun _ _ fits => ⟨by simp [fits.1], fits.2.behind⟩

theorem Suite.Fits.withRoom (n : Nat) (low : reach * n + reach + 3 ≤ m) :
    (Suite.withRoom n).Fits m := by
  have level : ∀ {n}, reach * n + reach + 3 ≤ m → ∃ k, k + reach + 3 ≤ m ∧ (Level.withRoom n).Fits k :=
    fun low => ⟨_, low, .withRoom _⟩
  induction n with
  | zero => exact ⟨level low, .fail⟩
  | succ n ih =>
    have lower : reach * n ≤ reach * (n + 1) := Nat.mul_le_mul_left _ (Nat.le_succ n)
    exact ⟨level low, indentedBlock_fits (ih (by omega))⟩

/-- How high expressions get without weight. -/
def moduleReach : Nat := reach * maxNesting + reach + 3

theorem moduleItem?_fits :
    Reads front moduleItem? fun found read => ∀ part ∈ found, Written moduleReach part read := by
  have sound : (Suite.withRoom maxNesting).Fits moduleReach := .withRoom _ (Nat.le_refl _)
  refine .peek fun l => ?_
  split
  · exact .pure nofun
  · refine .skip (fun us here last => by cases here.2.symm.trans last) fun _ _ =>
      .pure fun _ found => ?_
    obtain rfl := Option.some.inj found
    exact ⟨by simp, .nil⟩
  · refine (statement_fits sound).bind fun part read fits => .pure fun _ found => ?_
    obtain rfl := Option.some.inj found
    rwa [List.append_nil]

theorem module_fits :
    Reads front (many moduleItem?) fun parts read => AllFit moduleReach (exprsAll parts.flatten) read :=
  moduleItem?_fits.many.mono fun parts _ each => by
    have lines := each.allFit fun _ _ => And.right
    rwa [← exprsAll_flatten] at lines

end ConceptForest.Script
