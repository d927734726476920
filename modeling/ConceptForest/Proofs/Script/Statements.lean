import ConceptForest.Proofs.Script.Expressions
import ConceptForest.Script.Stmt.Parser

/-!
No rule for statements takes a keyword for a name.

There is one lemma for each rule of the grammar, in the order of the rules, as for expressions.
Blocks are closed by induction on the room that is left.

* `suite_plain` — so the rules of every level read statements free of keywords.
* `keywordFree_of_parse` — no name that is read in a snippet is a keyword.
-/

namespace ConceptForest.Script

open Reader

/-- No statement of the list reads a keyword. -/
abbrev AllFree (statements : List Stmt) : Prop := ∀ s ∈ statements, s.Plain

/-- The rules for statements read no keyword for a name. -/
structure Suite.Plain (suite : Suite) : Prop where
  level : suite.level.Plain
  block : Yields suite.block AllFree

variable {level : Level} {suite : Suite} {rule : Reader Expr} {e : Expr}
  {statements others : List Stmt}

theorem allFree_singleton {s : Stmt} (plain : s.Plain) : AllFree [s] :=
  List.forall_mem_singleton.mpr plain

theorem allFree_cons {s : Stmt} (plain : s.Plain) (more : AllFree others) : AllFree (s :: others) :=
  List.forall_mem_cons.mpr ⟨plain, more⟩

theorem allFree_append (plain : AllFree statements) (more : AllFree others) :
    AllFree (statements ++ others) :=
  List.forall_mem_append.mpr ⟨plain, more⟩

theorem allFree_flatten {parts : List (List Stmt)} (plain : ∀ part ∈ parts, AllFree part) :
    AllFree parts.flatten :=
  List.forall_mem_flatten.mpr plain

/-! ### Uses of expressions -/

theorem reading_plain (plain : e.Plain) : Yields (reading e) Stmt.Plain :=
  .either (.pure (.read plain)) .fail

theorem assigning_plain (plain : e.Plain) : Yields (assigning e) Stmt.Plain :=
  .either (.pure (.assign plain)) .fail

theorem augmenting_plain (plain : e.Plain) : Yields (augmenting e) Stmt.Plain := by
  unfold augmenting
  split
  · exact .pure (.augment plain)
  · exact .fail

theorem deleting_plain (plain : e.Plain) : Yields (deleting e) Stmt.Plain := by
  unfold deleting
  split
  · exact .pure (.assign plain)
  · exact .fail

theorem evaluated_plain (yields : Yields rule Expr.Plain) : Yields (evaluated rule) Stmt.Plain :=
  yields.bind fun _ plain => reading_plain plain

/-! ### Simple statements -/

theorem importedModule_plain : Yields importedModule Stmt.Plain :=
  .behind fun _ => .choose (.behind fun _ => .pure .bind) (.pure .bind)

theorem importedName_plain : Yields importedName Stmt.Plain :=
  .behind fun _ => .choose (.behind fun _ => .pure .bind) (.pure .bind)

theorem importModules_plain : Yields importModules AllFree :=
  .behind fun _ => importedModule_plain.oneAndMore

theorem importNames_plain : Yields importNames AllFree := by
  refine .behind fun _ => .behind fun _ => .behind fun _ => .join (fun _ => True)
    (fun _ further => .either (further () trivial) (.behind fun _ => further () trivial))
    fun _ _ => .behind fun _ => .choose (.pure nofun) (.choose ?_ importedName_plain.oneAndMore)
  exact .behind fun _ => .join AllFree
    (fun _ further => .either (.nothing further) (importedName_plain.commaSeparated.bind further))
    fun _ names => .behind fun _ => .pure names

/-- Of several targets the last one is what the others are bound to. -/
theorem chain_plain {chain : List Expr} (plain : AllPlain chain) :
    Yields (do
      let value ← chain.getLast?.toList.mapM reading
      return value ++ (← chain.dropLast.mapM assigning)) AllFree := by
  have last : ∀ e ∈ chain.getLast?.toList, Yields (reading e) Stmt.Plain := fun e mem =>
    reading_plain (plain e (List.mem_of_getLast? (Option.mem_toList.mp mem)))
  have targets : ∀ e ∈ chain.dropLast, Yields (assigning e) Stmt.Plain := fun e mem =>
    assigning_plain (plain e (List.dropLast_subset chain mem))
  exact (Yields.mapM last).bind fun _ value => (Yields.mapM targets).bind fun _ assigned =>
    .pure (allFree_append value assigned)

theorem expressionStatement_plain (sound : level.Plain) :
    Yields (expressionStatement level) AllFree := by
  have anything := yieldOrTestList_plain sound
  have value := evaluated_plain anything
  refine anything.bind fun first holds => .choose ?_ (.choose ?_ (.choose ?_ ?_))
  · refine (evaluated_plain sound.test).bind fun _ note => .behind fun _ => .join AllFree
      (fun _ further => .either (value.single further) (.nothing further)) fun _ assigned => ?_
    exact (assigning_plain holds).bind fun _ target => .pure
      (allFree_append (allFree_cons note assigned) (allFree_singleton target))
  · exact value.bind fun _ read => (augmenting_plain holds).bind fun _ target =>
      .pure (allFree_cons read (allFree_singleton target))
  · exact anything.manyWhile.bind fun _ others => chain_plain (allPlain_cons holds others)
  · exact (reading_plain holds).bind fun _ read => .pure (allFree_singleton read)

/-- One expression that is evaluated, or two with a word or a comma between them. -/
theorem oneOrTwo_plain {question : Reader Bool} (sound : level.Plain) :
    Yields (do
      let first ← evaluated level.test
      if ← question then return [first, ← evaluated level.test] else return [first]) AllFree :=
  (evaluated_plain sound.test).bind fun _ first => .choose
    ((evaluated_plain sound.test).bind fun _ second =>
      .pure (allFree_cons first (allFree_singleton second)))
    (.pure (allFree_singleton first))

theorem simpleStatement_plain (sound : level.Plain) :
    Yields (simpleStatement level) AllFree := by
  have empty : Yields (do advance; return []) AllFree := .behind fun _ => .pure nofun
  refine .behind fun word => ?_
  split
  · exact empty
  · exact empty
  · exact empty
  · exact .behind fun _ => .choose (.pure nofun)
      ((evaluated_plain (testList_plain sound)).bind fun _ value => .pure (allFree_singleton value))
  · exact .behind fun _ => .choose (.pure nofun) (oneOrTwo_plain sound)
  · exact .behind fun _ => .behind fun _ =>
      .pure (List.forall_mem_map.mpr fun _ _ => .declareGlobal)
  · exact .behind fun _ => .behind fun _ =>
      .pure (List.forall_mem_map.mpr fun _ _ => .declareNonlocal)
  · exact .behind fun _ => (targetList_plain sound).bind fun _ target =>
      (deleting_plain target).bind fun _ deleted => .pure (allFree_singleton deleted)
  · exact .behind fun _ => oneOrTwo_plain sound
  · exact importModules_plain
  · exact importNames_plain
  · exact expressionStatement_plain sound

theorem simpleLine_plain (sound : level.Plain) : Yields (simpleLine level) AllFree :=
  (simpleStatement_plain sound).oneAndMore.bind fun _ parts => .behind fun _ =>
    .pure (allFree_flatten parts)

/-! ### Compound statements -/

theorem conditionAndBlock_plain (sound : suite.Plain) : Yields (conditionAndBlock suite) AllFree :=
  (evaluated_plain (namedTest_plain sound.level)).bind fun _ condition =>
    sound.block.bind fun _ body => .pure (allFree_cons condition body)

theorem blockBehind_plain {word : String} (sound : suite.Plain) :
    Yields (blockBehind suite word) AllFree :=
  .choose sound.block (.pure nofun)

theorem functionDefinition_plain (sound : suite.Plain) :
    Yields (functionDefinition suite) AllFree := by
  refine .behind fun _ => .behind fun name => .behind fun _ =>
    (parameters_plain sound.level).bind fun ps plain => .behind fun _ => ?_
  have defaults : Yields ((parameterReads ps).mapM reading) AllFree :=
    .mapM fun e mem => reading_plain (parameterReads_plain plain e mem)
  refine defaults.bind fun _ reads => .behind fun _ => .join AllFree
    (fun _ further => .either ((evaluated_plain sound.level.test).single further)
      (.nothing further)) fun _ result => sound.block.bind fun _ body => .pure ?_
  exact allFree_append (allFree_append reads result)
    (allFree_cons .bind (allFree_singleton (.scope body)))

theorem classDefinition_plain (sound : suite.Plain) : Yields (classDefinition suite) AllFree := by
  have bases : ∀ es, AllPlain es → Yields (es.mapM reading) AllFree := fun es plain =>
    .mapM fun e mem => reading_plain (plain e mem)
  refine .behind fun _ => .behind fun name => .behind fun _ => .join AllFree
    (fun _ further => .either ((arguments_plain sound.level).bind fun es plain =>
      (bases es plain).bind further) (.nothing further)) fun _ reads =>
    sound.block.bind fun _ body => .pure ?_
  exact allFree_append reads (allFree_cons .bind (allFree_singleton (.scope body)))

theorem ifStatement_plain (sound : suite.Plain) : Yields (ifStatement suite) AllFree :=
  .behind fun _ => (conditionAndBlock_plain sound).oneAndMore.bind fun _ branches =>
    (blockBehind_plain sound).bind fun _ otherwise =>
      .pure (allFree_append (allFree_flatten branches) otherwise)

theorem whileStatement_plain (sound : suite.Plain) : Yields (whileStatement suite) AllFree :=
  .behind fun _ => (conditionAndBlock_plain sound).bind fun _ loop =>
    (blockBehind_plain sound).bind fun _ otherwise => .pure (allFree_append loop otherwise)

theorem forStatement_plain (sound : suite.Plain) : Yields (forStatement suite) AllFree :=
  .behind fun _ => (targetList_plain sound.level).bind fun _ target => .behind fun _ =>
    (evaluated_plain (testList_plain sound.level)).bind fun _ source =>
      (assigning_plain target).bind fun _ binding => sound.block.bind fun _ body =>
        (blockBehind_plain sound).bind fun _ otherwise => .pure
          (allFree_append (allFree_cons source (allFree_cons binding body)) otherwise)

theorem handler_plain (sound : suite.Plain) : Yields (handler suite) AllFree := by
  have further : ∀ kind, AllFree kind → Yields (do return kind ++ (← suite.block)) AllFree :=
    fun _ kind => sound.block.bind fun _ body => .pure (allFree_append kind body)
  refine .behind fun _ => .behind fun _ => .either (.nothing further)
    ((evaluated_plain sound.level.test).bind fun _ kind => .choose (.behind fun name => ?_) ?_)
  · exact .bind (.pure (allFree_cons kind (allFree_singleton .bind))) further
  · exact .bind (.pure (allFree_singleton kind)) further

theorem tryStatement_plain (sound : suite.Plain) : Yields (tryStatement suite) AllFree :=
  .behind fun _ => sound.block.bind fun _ body => (handler_plain sound).manyWhile.bind
    fun _ handlers => (blockBehind_plain sound).bind fun _ otherwise => .behind fun _ =>
      (blockBehind_plain sound).bind fun _ final => .either .fail <| .pure <|
        allFree_append (allFree_append (allFree_append body (allFree_flatten handlers)) otherwise)
          final

theorem manager_plain (sound : suite.Plain) : Yields (manager suite) AllFree := by
  refine (evaluated_plain sound.level.test).bind fun _ value =>
    .choose ?_ (.pure (allFree_singleton value))
  exact (starOr_plain sound.level (sound.level.again .arithmetic)).bind fun _ target =>
    (assigning_plain target).bind fun _ binding =>
      .pure (allFree_cons value (allFree_singleton binding))

theorem withStatement_plain (sound : suite.Plain) : Yields (withStatement suite) AllFree :=
  .behind fun _ => (manager_plain sound).oneAndMore.bind fun _ managers =>
    sound.block.bind fun _ body => .pure (allFree_append (allFree_flatten managers) body)

theorem decorated_plain (sound : suite.Plain) : Yields (decorated suite) AllFree := by
  have decorator : Yields (do
      let decorator ← evaluated (namedTest suite.level)
      expectLineEnd
      return decorator) Stmt.Plain :=
    (evaluated_plain (namedTest_plain sound.level)).bind fun _ holds => .behind fun _ => .pure holds
  refine decorator.manyWhile.bind fun _ decorators => .behind fun _ => .behind fun word => ?_
  split
  · exact (functionDefinition_plain sound).bind fun _ rest => .pure (allFree_append decorators rest)
  · exact (classDefinition_plain sound).bind fun _ rest => .pure (allFree_append decorators rest)
  · exact .fail

theorem statement_plain (sound : suite.Plain) : Yields (statement suite) AllFree := by
  refine .behind fun lexeme => ?_
  split
  · exact decorated_plain sound
  · exact .fail
  · exact .fail
  · refine .behind fun word => ?_
    split
    · exact functionDefinition_plain sound
    · exact classDefinition_plain sound
    · exact ifStatement_plain sound
    · exact whileStatement_plain sound
    · exact forStatement_plain sound
    · exact tryStatement_plain sound
    · exact withStatement_plain sound
    · refine .behind fun _ => .behind fun word => ?_
      split
      · exact functionDefinition_plain sound
      · exact forStatement_plain sound
      · exact withStatement_plain sound
      · exact .unexpected
    · exact simpleLine_plain sound.level

/-! ### Blocks and modules -/

theorem blockItem?_plain (sound : suite.Plain) :
    Yields (blockItem? suite) fun found => ∀ part ∈ found, AllFree part := by
  refine .behind fun lexeme => ?_
  split
  · exact .behind fun _ => .pure nofun
  · exact .pure nofun
  · exact .behind fun _ => .found nofun
  · exact (statement_plain sound).bind fun _ part => .found part

theorem indentedBlock_plain (sound : suite.Plain) : Yields (indentedBlock suite) AllFree := by
  refine .behind fun _ => .behind fun lexeme => ?_
  split
  · refine .behind fun _ => .behind fun lexeme => ?_
    split
    · exact .behind fun _ => (blockItem?_plain sound).many.bind fun _ parts =>
        .pure (allFree_flatten parts)
    · exact .fail
  · exact simpleLine_plain sound.level

/-- However much room is left, the rules for statements read no keyword for a name. -/
theorem suite_plain (n : Nat) : (Suite.withRoom n).Plain := by
  induction n with
  | zero => exact ⟨.withRoom 0, .fail⟩
  | succ n ih => exact ⟨.withRoom (n + 1), indentedBlock_plain ih⟩

theorem moduleItem?_plain : Yields moduleItem? fun found => ∀ part ∈ found, AllFree part := by
  refine .behind fun lexeme => ?_
  split
  · exact .pure nofun
  · exact .behind fun _ => .found nofun
  · exact (statement_plain (suite_plain maxNesting)).bind fun _ part => .found part

/-- No name that is read in a snippet is a keyword. -/
theorem keywordFree_of_parse {source : String} (parsed : Stmt.parse source = .ok statements) :
    KeywordFree (outlineAll statements) := by
  obtain ⟨ts, -, parsed⟩ := bind_eq_ok_iff.mp parsed
  obtain ⟨⟨parts, rest⟩, read, same⟩ := bind_eq_ok_iff.mp parsed
  obtain ⟨⟩ := same
  exact keywordFree_outlineAll (allFree_flatten (moduleItem?_plain.many ts parts rest read))

end ConceptForest.Script
