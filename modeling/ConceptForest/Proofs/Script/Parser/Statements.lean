import ConceptForest.Proofs.Script.Parser.Expressions
import ConceptForest.Proofs.Script.Parser.Performs

/-!
The rules for statements of a parser perform what the readers read.

There is one lemma for each rule, in the order of the rules. What a compound statement takes its
block for must perform what the block of the suite reads (`SameSuite`); tied to themselves, the
blocks do, with any room that is left.

* `block_sameSuite` — the blocks of the grammar.
* `module_runs` — a whole snippet.
-/

namespace ConceptForest.Script.Parser

open Scopes (performAll performAll_append perform)

variable {n k : Nat} {front : List Token → Prop} {done : List Stmt} {α β γ : Type}

/-! ### Simple statements -/

theorem dottedName_agrees : Agrees n k front dottedName Script.dottedName :=
  Agrees.expectName.bind fun _ => (Agrees.manyWhile .eatOp .expectName).bind fun _ => .pure

/-- A name, or the other name that follows it. -/
theorem alias_performs (name : String) :
    Performs n k front done
      (do if ← eatWord "as" then change (.bind (← expectName)) else change (.bind name))
      (do if ← Reader.eatWord "as" then return .bind (← Reader.expectName) else return .bind name)
      fun s => done ++ [s] :=
  .choose .eatWord (.after .expectName fun other => change_performs (.bind other) (fun _ => rfl) rfl)
    (change_performs (.bind name) (fun _ => rfl) rfl)

theorem importedModule_performs :
    Performs n k front done importedModule Script.importedModule fun s => done ++ [s] :=
  .after dottedName_agrees alias_performs

theorem importedName_performs :
    Performs n k front done importedName Script.importedName fun s => done ++ [s] :=
  .after .expectName alias_performs

theorem importModules_performs (inside : ∀ us, front us → headLexeme us ≠ .endOfInput) :
    Performs n k front done importModules Script.importModules (done ++ ·) :=
  .skip inside (.statements .eatOp importedModule_performs)

theorem importedNames_performs :
    Performs n k front done importedNames
      (do
        Reader.expectWord "import"
        if ← Reader.eatOp "*" then return []
        else if ← Reader.eatOp "(" then
          let names ← if ← Reader.isOp ")" then pure []
            else Reader.commaSeparated (Reader.isOp ")") Script.importedName
          Reader.expectOp ")"
          return names
        else Reader.oneAndMore (Reader.eatOp ",") Script.importedName)
      (done ++ ·) := by
  have more : Agrees n k Anywhere
      (do if ← eatOp "," then return !(← isOp ")") else return false)
      (do if ← Reader.eatOp "," then return !(← Reader.isOp ")") else return false) :=
    .choose .eatOp (Agrees.isOp.bind fun _ => .pure) .pure
  have closed : ∀ names, Performs n k Anywhere (done ++ names) (expectOp ")")
      (do Reader.expectOp ")"; return names) (done ++ ·) := fun names scopes =>
    (Agrees.expectOp _).returning (fun _ => rfl) fun _ => rfl
  have none := closed []
  rw [List.append_nil] at none
  refine .after .expectWord fun _ => .choose .eatOp (.pure (List.append_nil done))
    (.choose .eatOp ?_ (.statements .eatOp importedName_performs))
  exact .after .isOp fun _ => .either none <| .oneAndMore more importedName_performs fun names =>
    (List.flatMap_singleton' names).symm ▸ closed names

theorem importNames_performs (inside : ∀ us, front us → headLexeme us ≠ .endOfInput) :
    Performs n k front done importNames Script.importNames (done ++ ·) :=
  .skip inside <| .after (.manyWhile .eatOneOf .pure) fun _ => .after .isWord fun _ =>
    .either importedNames_performs (.after dottedName_agrees fun _ => importedNames_performs)

theorem expressionStatement_performs :
    Performs n k front done expressionStatement (Script.expressionStatement (.withRoom n))
      (done ++ ·) := by
  have same := body_sameLevel n k
  refine .behind (.after (yieldOrTestList_agrees same) fun first => .choose .eatOp ?_
    (.choose .eatOneOf ?_ (.choose .isOp ?_ ?_)))
  · have bound : ∀ note value, Performs n k Anywhere (note :: value) (store first)
        (do return note :: value ++ [← assigning first]) id := fun note value =>
      (store_performs first).returning fun _ => rfl
    exact (evaluated_performs same.test).bind fun note => .after .eatOp fun _ =>
      .either ((evaluated_performs (yieldOrTestList_agrees same)).bind fun s => bound note [s])
        (bound note [])
  · exact (evaluated_performs (yieldOrTestList_agrees same)).bind fun s =>
      (augment_performs first).returning fun _ => rfl
  · refine .after (.manyWhile .eatOp (yieldOrTestList_agrees same)) fun others => ?_
    exact (Performs.forM load_performs _).bind fun value =>
      (Performs.forM store_performs _).returning fun _ => rfl
  · exact (load_performs first).returning fun _ => rfl

theorem atStatementEnd_agrees : Agrees n k front atStatementEnd Script.atStatementEnd :=
  .choose .atLineEnd .pure .isOp

/-- Names that are declared to belong to other scopes. -/
theorem declarations_perform {declare : String → Scopes → Scopes} {made : String → Stmt}
    (does : ∀ name scopes, performAll (outlineAll [made name]) scopes = declare name scopes) :
    Performs n k front done
      (do let _ ← oneAndMore (eatOp ",") do change (declare (← expectName)))
      (do return (← Reader.oneAndMore (Reader.eatOp ",") Reader.expectName).map made)
      (done ++ ·) := by
  have each : Performs n k Anywhere [] (do change (declare (← expectName))) Reader.expectName
      fun name => [made name] := by
    rw [← bind_pure Reader.expectName]
    exact .after .expectName fun name => change_performs (made name) (does name) rfl
  exact .oneAndMore .eatOp each fun names => .pure (by rw [List.map_eq_flatMap])

theorem simpleStatement_performs :
    Performs n k front done simpleStatement (Script.simpleStatement (.withRoom n)) (done ++ ·) := by
  have same := body_sameLevel n (k - 1)
  have nothing : ∀ {front : List Token → Prop},
      (∀ us, front us → headLexeme us ≠ .endOfInput) → Performs n k front done advance
        (do Reader.advance; return []) (done ++ ·) := fun inside _ =>
    (Runs.advance inside).returning (fun _ => rfl) fun _ => by simp
  refine .keyword fun word => ?_
  split
  · exact nothing keyword_inside
  · exact nothing keyword_inside
  · exact nothing keyword_inside
  · exact .skip keyword_inside <| .choose atStatementEnd_agrees (.pure (List.append_nil done))
      ((evaluated_performs (testList_agrees same)).returning fun _ => rfl)
  · refine .skip keyword_inside <| .choose atStatementEnd_agrees
      (.pure (List.append_nil done)) ((evaluated_performs same.test).bind fun exception =>
        .choose .eatWord ((evaluated_performs same.test).returning fun _ => ?_) (.pure rfl))
    exact List.append_cons ..
  · exact .skip keyword_inside (declarations_perform fun _ _ => rfl)
  · exact .skip keyword_inside (declarations_perform fun _ _ => rfl)
  · exact .skip keyword_inside <| .after (targetList_agrees same (again_agrees n _).2)
      fun target => (delete_performs target).returning fun _ => rfl
  · refine .skip keyword_inside <| (evaluated_performs same.test).bind fun check =>
        .choose .eatOp ((evaluated_performs same.test).returning fun _ => ?_) (.pure rfl)
    exact List.append_cons ..
  · exact importModules_performs keyword_inside
  · exact importNames_performs keyword_inside
  -- the reader asks once more what the rule has just asked
  all_goals try split
  all_goals first
    | contradiction
    | exact expressionStatement_performs

theorem simpleLine_performs :
    Performs n k front done simpleLine (Script.simpleLine (.withRoom n)) (done ++ ·) := by
  have more : Agrees n k Anywhere
      (do if ← eatOp ";" then return !(← atLineEnd) else return false)
      (do if ← Reader.eatOp ";" then return !(← Reader.atLineEnd) else return false) :=
    .choose .eatOp (Agrees.atLineEnd.bind fun _ => .pure) .pure
  refine .oneAndMore more simpleStatement_performs fun rows scopes => ?_
  exact (Agrees.expectLineEnd _).returning (fun _ => rfl) fun _ => by simp

/-! ### Compound statements -/

/-- The block performs what the block of the suite reads, with room for `n` more nesting levels. -/
structure SameSuite (n : Nat) (block : Rule Unit) (suite : Suite) : Prop where
  level : suite.level = .withRoom n
  block : ∀ k, Performs n k Anywhere [] block suite.block id

section

variable {block : Rule Unit} {suite : Suite}

theorem SameSuite.exprs (same : SameSuite n block suite) (k : Nat) : SameLevel n k body suite.level :=
  same.level ▸ body_sameLevel n k

theorem SameSuite.operand (same : SameSuite n block suite) (k : Nat) :
    Agrees n k Anywhere (body .arithmetic) (suite.level.again .arithmetic) :=
  same.level ▸ (again_agrees n k).2

theorem SameSuite.behind (same : SameSuite n block suite) :
    Performs n k front done block suite.block (done ++ ·) :=
  .under (.behind (same.block k))

theorem conditionAndBlock_performs (same : SameSuite n block suite) :
    Performs n k front done (conditionAndBlock block) (Script.conditionAndBlock suite)
      (done ++ ·) :=
  (evaluated_performs (namedTest_agrees (same.exprs k))).bind fun condition =>
    same.behind.returning fun _ => by simp

theorem blockBehind_performs (same : SameSuite n block suite) (word : String) :
    Performs n k front done (blockBehind block word) (Script.blockBehind suite word) (done ++ ·) :=
  .choose .eatWord same.behind (.pure (List.append_nil done))

section

variable {scopes : Scopes} {rule : Rule Unit} {reader : Reader α} {value : α → Unit}
  {after : α → Scopes}

theorem changed_runs {f : Scopes → Scopes}
    (runs : Runs n k front (f scopes) rule reader value after) :
    Runs n k front scopes (change f >>= fun _ => rule) reader value after := by
  rintro p fits rfl here
  exact runs { p with scopes := f p.scopes } ⟨fits.ends, fits.within, fits.room, fits.left⟩ rfl here

theorem binds_run {names : List String}
    (runs : Runs n k front (performAll (names.map .bind) scopes) rule reader value after) :
    Runs n k front scopes (names.forM (fun name => change (.bind name)) >>= fun _ => rule) reader
      value after := by
  induction names generalizing scopes with
  | nil => exact runs
  | cons name names ih =>
    have first : ((name :: names).forM (fun name => change (.bind name)) >>= fun _ => rule) =
        change (.bind name) >>= fun _ => names.forM (fun name => change (.bind name)) >>= fun _ => rule :=
      bind_assoc _ _ _
    exact first ▸ changed_runs (ih runs)

end

theorem changed_performs {rule : Rule Unit} {reader : Reader α} {stmts : α → List Stmt}
    {f : Scopes → Scopes} (s : Stmt)
    (does : ∀ scopes, performAll (outlineAll [s]) scopes = f scopes)
    (performs : Performs n k front (done ++ [s]) rule reader stmts) :
    Performs n k front done (change f >>= fun _ => rule) reader stmts := by
  refine fun scopes => changed_runs ?_
  rw [← does, ← performAll_append, ← outlineAll_append]
  exact performs scopes

/-- The scope of a function or a class is entered, filled and left. -/
theorem scopeBlock_performs (same : SameSuite n block suite) (kind : ScopeKind)
    (names : List String) :
    Performs n k front done (scopeBlock block kind names) suite.block
      fun stmts => done ++ [.scope kind names stmts] := by
  intro scopes
  rw [← bind_pure suite.block]
  refine changed_runs (binds_run ((same.block k _).under.bind fun stmts => change_runs ?_))
  simp [outlineAll, Stmt.outline, outlineAll_append, performAll_append, performAll, perform]

/-- The name of a function or a class is bound in front of its scope. -/
theorem definition_performs {stmts : List Stmt} (same : SameSuite n block suite) (name : String)
    (kind : ScopeKind) (names : List String) (all : stmts = done) :
    Performs n k front done (change (.bind name) >>= fun _ => scopeBlock block kind names)
      (do return stmts ++ [.bind name, .scope kind names (← suite.block)]) id := by
  subst all
  exact changed_performs (.bind name) (fun _ => rfl) <|
    (scopeBlock_performs same kind names).returning fun _ => by simp

theorem functionDefinition_performs (same : SameSuite n block suite)
    (inside : ∀ us, front us → headLexeme us ≠ .endOfInput) :
    Performs n k front done (functionDefinition block) (Script.functionDefinition suite)
      (done ++ ·) := by
  have exprs := same.exprs (k - 1)
  refine .behind <| .skip inside <| .after .expectName fun name => .after .expectOp fun _ =>
    .after (parameters_agrees exprs ")" true) fun ps => .after .expectOp fun _ =>
      (Performs.forM load_performs _).bind fun reads => .after .eatOp fun _ => .either ?_ ?_
  · exact (evaluated_performs exprs.test).bind fun result =>
      definition_performs same name .function (parameterNames ps) rfl
  · exact definition_performs same name .function (parameterNames ps) (List.append_nil reads)

theorem classDefinition_performs (same : SameSuite n block suite)
    (inside : ∀ us, front us → headLexeme us ≠ .endOfInput) :
    Performs n k front done (classDefinition block) (Script.classDefinition suite)
      (done ++ ·) := by
  refine .behind <| .skip inside <| .after .expectName fun name => .after .eatOp fun _ =>
    .either ?_ ?_
  · exact .after (arguments_agrees (same.exprs (k - 1))) fun bases =>
      (Performs.forM load_performs _).bind fun reads => definition_performs same name .classBody [] rfl
  · exact definition_performs same name .classBody [] rfl

theorem ifStatement_performs (same : SameSuite n block suite)
    (inside : ∀ us, front us → headLexeme us ≠ .endOfInput) :
    Performs n k front done (ifStatement block) (Script.ifStatement suite) (done ++ ·) :=
  .skip inside <| .oneAndMore .eatWord (conditionAndBlock_performs same) fun _ =>
    (blockBehind_performs same "else").returning fun _ => by simp

theorem whileStatement_performs (same : SameSuite n block suite)
    (inside : ∀ us, front us → headLexeme us ≠ .endOfInput) :
    Performs n k front done (whileStatement block) (Script.whileStatement suite) (done ++ ·) :=
  .skip inside <| (conditionAndBlock_performs same).bind fun _ =>
    (blockBehind_performs same "else").returning fun _ => by simp

theorem forStatement_performs (same : SameSuite n block suite)
    (inside : ∀ us, front us → headLexeme us ≠ .endOfInput) :
    Performs n k front done (forStatement block) (Script.forStatement suite) (done ++ ·) := by
  have exprs := same.exprs (k - 1)
  exact .skip inside <| .after (targetList_agrees exprs (same.operand _)) fun target =>
    .after .expectWord fun _ => (evaluated_performs (testList_agrees exprs)).bind fun _ =>
      (store_performs target).bind fun _ => same.behind.bind fun _ =>
        (blockBehind_performs same "else").returning fun _ => by simp

theorem handler_performs (same : SameSuite n block suite) :
    Performs n k front done (handler block) (Script.handler suite) (done ++ ·) := by
  have caught : ∀ kind, Performs n k Anywhere kind block (do return kind ++ (← suite.block)) id :=
    fun kind => same.behind.returning fun _ => rfl
  exact .behind <| .after .eatOp fun _ => .after .isOp fun _ => .either (caught []) <|
    (evaluated_performs (same.exprs k).test).bind fun kind => .after .eatWord fun _ => .either
      (.after .expectName fun name => changed_performs (.bind name) (fun _ => rfl)
        (caught [kind, .bind name])) (caught [kind])

theorem tryStatement_performs (same : SameSuite n block suite)
    (inside : ∀ us, front us → headLexeme us ≠ .endOfInput) :
    Performs n k front done (tryStatement block) (Script.tryStatement suite) (done ++ ·) := by
  refine .skip inside <| same.behind.bind fun body => .manyWhile .eatWord (handler_performs same)
    fun handlers => (blockBehind_performs same "else").bind fun otherwise => .after .isWord
      fun hasFinally => (blockBehind_performs same "finally").bind fun final => ?_
  rw [List.isEmpty_map]
  exact .either .fail (.pure (by simp))

theorem manager_performs (same : SameSuite n block suite) :
    Performs n k front done manager (Script.manager suite) (done ++ ·) := by
  have exprs := same.exprs k
  exact (evaluated_performs exprs.test.under).bind fun value => .choose .eatWord
    (.after (starTarget_agrees exprs (same.operand k)) fun target =>
      (store_performs target).returning fun _ => by simp) (.pure rfl)

theorem withStatement_performs (same : SameSuite n block suite)
    (inside : ∀ us, front us → headLexeme us ≠ .endOfInput) :
    Performs n k front done (withStatement block) (Script.withStatement suite) (done ++ ·) :=
  .skip inside <| .oneAndMore .eatOp (manager_performs same) fun _ =>
    same.behind.returning fun _ => by simp

theorem decorated_performs (same : SameSuite n block suite) :
    Performs n k front done (decorated block) (Script.decorated suite) (done ++ ·) := by
  have decorator : Performs n k Anywhere [] (do evaluated (namedTest body); expectLineEnd)
      (do
        let decorator ← Script.evaluated (Script.namedTest suite.level)
        Reader.expectLineEnd
        return decorator) fun s => [s] :=
    (evaluated_performs (namedTest_agrees (same.exprs k))).bind fun _ _ =>
      (Agrees.expectLineEnd _).returning (fun _ => rfl) fun _ => rfl
  refine .manyWhile .eatOp decorator fun decorators => .after .eatWord fun _ =>
    .keyword fun word => ?_
  rw [List.flatMap_singleton']
  split
  · exact (functionDefinition_performs same keyword_inside).returning fun _ => by simp
  · exact (classDefinition_performs same keyword_inside).returning fun _ => by simp
  all_goals try split
  all_goals first
    | contradiction
    | exact .fail

theorem statementOver_performs (same : SameSuite n block suite) :
    Performs n k front done (statementOver block) (Script.statement suite) (done ++ ·) := by
  refine .peek fun l => ?_
  have line : ∀ {front : List Token → Prop}, Performs n k front done simpleLine
      (Script.simpleLine suite.level) (done ++ ·) := same.level ▸ simpleLine_performs
  split
  · exact decorated_performs same
  · exact .fail
  · exact .fail
  -- here, too, the reader asks the same again
  all_goals try split
  all_goals try contradiction
  refine .keyword fun word => ?_
  split
  · exact functionDefinition_performs same keyword_inside
  · exact classDefinition_performs same keyword_inside
  · exact ifStatement_performs same keyword_inside
  · exact whileStatement_performs same keyword_inside
  · exact forStatement_performs same keyword_inside
  · exact tryStatement_performs same keyword_inside
  · exact withStatement_performs same keyword_inside
  · refine .skip keyword_inside (.keyword fun word => ?_)
    split
    · exact functionDefinition_performs same keyword_inside
    · exact forStatement_performs same keyword_inside
    · exact withStatement_performs same keyword_inside
    all_goals try split
    all_goals first
      | contradiction
      | exact .unexpected
  all_goals try split
  all_goals first
    | contradiction
    | exact line

/-! ### Blocks and modules -/

/-- A statement of its own. -/
theorem statementOver_runs (same : SameSuite n block suite) (scopes : Scopes) :
    Runs n k front scopes (statementOver block) (Script.statement suite) (fun _ => ())
      fun stmts => performAll (outlineAll stmts) scopes := by
  have performs : Performs n k front [] (statementOver block) (Script.statement suite) ([] ++ ·) :=
    statementOver_performs same
  exact performs scopes

theorem blockItem?_runs (same : SameSuite n block suite) (scopes : Scopes) :
    Runs n k front scopes (blockItem? block) (Script.blockItem? suite) (Option.map fun _ => ())
      fun found => found.elim scopes fun stmts => performAll (outlineAll stmts) scopes := by
  refine .peek fun l => ?_
  have inside : l ≠ .endOfInput → ∀ us, front us ∧ headLexeme us = l →
      headLexeme us ≠ .endOfInput := fun other us shown last => other (shown.2.symm.trans last)
  cases l with
  | dedent | newline => exact .skip (inside nofun) (.pure rfl rfl)
  | endOfInput => exact .pure rfl rfl
  | _ => exact (statementOver_runs same scopes).bind fun _ => .pure rfl rfl

theorem indentedBlock_performs (same : SameSuite n block suite) :
    Performs n k front done (indentedBlock block) (Script.indentedBlock suite) (done ++ ·) := by
  have line : ∀ {front : List Token → Prop}, Performs n k front done simpleLine
      (Script.simpleLine suite.level) (done ++ ·) := same.level ▸ simpleLine_performs
  refine .after .expectOp fun _ => .peek fun l => ?_
  cases l with
  | newline =>
    refine .skip (fun us here last => by cases here.2.symm.trans last) (.peek fun l => ?_)
    cases l with
    | indent =>
      refine .skip (fun us here last => by cases here.2.symm.trans last) ?_
      refine .behind fun scopes => (Runs.many (blockItem?_runs same)).bind fun rows => .pure rfl ?_
      rw [← List.flatMap_id]
      exact (Performs.foldl_performAll rows _).symm
    | _ => exact .fail
  | _ => exact line

end

/-! ### The grammar tied to itself -/

theorem level_withRoom (n : Nat) : (Suite.withRoom n).level = .withRoom n := by
  cases n <;> rfl

/-- A block is refused without room; with room it is what it is one level deeper. -/
theorem sameSuite {inner : Rule Unit}
    (deep : ∀ m < n, ∀ k, Performs m k Anywhere [] inner (Script.indentedBlock (.withRoom m)) id) :
    SameSuite n (deeper .indentationTooDeep inner) (.withRoom n) := by
  refine ⟨level_withRoom n, fun k scopes => ?_⟩
  cases n with
  | zero => exact .tooDeep
  | succ m => exact .deeper (deep m (Nat.lt_succ_self m) k scopes)

theorem openBlock_performs (n k : Nat) :
    Performs n k Anywhere [] openBlock (Script.indentedBlock (.withRoom n)) id := by
  induction n using Nat.strongRecOn generalizing k with
  | ind n deep =>
    intro scopes p fits same here
    -- deeper than `p` the recursion is not cut off
    have again : ∀ m < n, ∀ k, Performs m k Anywhere []
        (fun q => if Descends q 0 p 0 then openBlock q else unexpected q)
        (Script.indentedBlock (.withRoom m)) id := fun m less k scopes =>
      (deep m less k scopes).congr
        (fun q fits' => if_pos (.inl (by rw [fits'.room, fits.room]; exact less))) fun _ _ => rfl
    have performs : Performs n k Anywhere [] _ (Script.indentedBlock (.withRoom n)) ([] ++ ·) :=
      indentedBlock_performs (sameSuite again)
    rw [openBlock, recursive]
    exact performs scopes p fits same here

/-- The blocks of the grammar perform what the blocks of the suites read. -/
theorem block_sameSuite (n : Nat) : SameSuite n block (.withRoom n) :=
  sameSuite fun m _ => openBlock_performs m

/-- What a block comes back to are blocks: the check that ends the recursion is never met. -/
theorem openBlock_plain {p : Parser} (fits : p.Fits n k) :
    Alike openBlock (indentedBlock block) p := by
  have opened : Performs n k Anywhere [] openBlock (Script.indentedBlock (.withRoom n)) id :=
    openBlock_performs n k
  have plain : Performs n k Anywhere [] (indentedBlock block) (Script.indentedBlock (.withRoom n))
      ([] ++ ·) := indentedBlock_performs (block_sameSuite n)
  exact (opened p.scopes).alike (plain p.scopes) fits rfl trivial

theorem statement_runs (scopes : Scopes) :
    Runs n k front scopes statement (Script.statement (.withRoom n)) (fun _ => ())
      fun stmts => performAll (outlineAll stmts) scopes :=
  statementOver_runs (block_sameSuite n) scopes

theorem moduleItem?_runs (scopes : Scopes) :
    Runs maxNesting k front scopes moduleItem? Script.moduleItem? (Option.map fun _ => ())
      fun found => found.elim scopes fun stmts => performAll (outlineAll stmts) scopes := by
  refine .peek fun l => ?_
  cases l with
  | endOfInput => exact .pure rfl rfl
  | newline => exact .skip (fun us shown last => by cases shown.2.symm.trans last) (.pure rfl rfl)
  | _ => exact (statement_runs scopes).bind fun _ => .pure rfl rfl

/-- The statements of a module, one after the other. -/
theorem module_runs (scopes : Scopes) :
    Runs maxNesting k front scopes module (do return (← Reader.many Script.moduleItem?).flatten)
      (fun _ => ()) fun stmts => performAll (outlineAll stmts) scopes := by
  refine (Runs.many moduleItem?_runs).bind fun rows => .pure rfl ?_
  rw [← List.flatMap_id]
  exact (Performs.foldl_performAll rows _).symm

/-- In front of the tokens of a snippet every nesting level may be opened. -/
theorem start_fits {source : String} {ts : List Token} (lexed : Script.tokens source = .ok ts) :
    (start ts).Fits maxNesting ts.length := by
  obtain ⟨front, here, same, -⟩ := (laid_of_tokens lexed).ends
  refine ⟨⟨front, here, same⟩, ?_, rfl, Nat.le_refl _⟩
  subst same
  simp [start]

/-- The parser finds in a snippet what the readers find, or the same fault, and has performed the
outline of what it has found. -/
theorem run_eq (source : String) : run source =
    (Stmt.parse source).map fun stmts => performAll (outlineAll stmts) .new := by
  unfold run Stmt.parse
  cases lexed : Script.tokens source with
  | error e => rfl
  | ok ts =>
    have runs : Runs maxNesting ts.length Anywhere .new module _ _ _ := module_runs .new
    obtain ⟨reads, fails⟩ := runs (start ts) (start_fits lexed) rfl trivial
    rw [ok_bind, ok_bind]
    have left : (start ts).rest = ts := rfl
    rw [left] at reads fails
    cases read : Reader.many Script.moduleItem? ts with
    | error e =>
      obtain ⟨q, run, -⟩ := fails e (run_bind_of_error read)
      have failed : (Reader.many Script.moduleItem?).run ts = .error e := read
      rw [run, failed]
      rfl
    | ok found =>
      obtain ⟨rows, us⟩ := found
      obtain ⟨place, -, -, -, run⟩ := reads rows.flatten us (run_bind_of_ok read)
      have done : (Reader.many Script.moduleItem?).run ts = .ok (rows, us) := read
      rw [run, done]
      rfl

end ConceptForest.Script.Parser
