import ConceptForest.Proofs.Script.Parallel.Expressions
import ConceptForest.Script.Stmt.Parser

/-!
Rules for statements read parallel lists of tokens alike.

A pairing of whole snippets has two sides (`Lines`): one for places on a logical line, and one for
places between lines, each by the number of blocks that are open. On a line both lists show the same
lexeme; between lines the one may end where the other goes on with a name, if nothing is open then.
A rule for statements leads from one side to the other, and every rule gets to its end.

* `statement_follows`, `indentedBlock_follows` — one statement, one block.
* `Suite.Follows.withRoom` — so the rules of every level read such lists alike.
-/

namespace ConceptForest.Script

open Reader

variable {α β : Type} {strict : Prop} {inside between : Nat → Pairing} {ts us ts' us' : List Token}
  {blocks : Nat}

/-- On a line, or between two. -/
def Somewhere (inside between : Nat → Pairing) (blocks : Nat) : Pairing := fun ts us =>
  inside blocks ts us ∨ between blocks ts us

/-- Rules for statements cannot tell the two lists apart. -/
structure Lines (strict : Prop) (inside between : Nat → Pairing) : Prop where
  /-- On a line the rules for expressions cannot. -/
  inLine : ∀ blocks, Parallel strict (inside blocks)
  /-- There the same lexeme is at the front of both. -/
  same : ∀ {blocks ts us}, inside blocks ts us → headLexeme us = headLexeme ts
  /-- What is on a line comes to the end of the line. -/
  ends : ∀ {blocks ts us}, inside blocks ts us → headLexeme ts ≠ .endOfInput
  /-- Between lines too, unless the one list is at its end. -/
  front : ∀ {blocks ts us}, between blocks ts us → headLexeme us = headLexeme ts ∨
    ¬ strict ∧ headLexeme ts = .endOfInput ∧
      ∃ name, headLexeme us = .name name ∧ isKeyword name = false
  /-- No block is open at the end. -/
  closes : ∀ {blocks ts us}, between (blocks + 1) ts us → headLexeme ts ≠ .endOfInput
  /-- No line is empty. -/
  filled : ∀ {blocks ts us}, between blocks ts us → headLexeme ts ≠ .newline
  begin : ∀ {blocks ts us}, between blocks ts us → (headLexeme ts).isContent = true →
    inside blocks ts us
  newline : ∀ {blocks ts us}, inside blocks ts us → headLexeme ts = .newline →
    between blocks (ts.drop 1) (us.drop 1)
  indent : ∀ {blocks ts us}, between blocks ts us → headLexeme ts = .indent →
    between (blocks + 1) (ts.drop 1) (us.drop 1)
  dedent : ∀ {blocks ts us}, between (blocks + 1) ts us → headLexeme ts = .dedent →
    between blocks (ts.drop 1) (us.drop 1)
  /-- Both lists get shorter at once. -/
  shorter : ∀ {blocks ts us ts' us'}, Somewhere inside between blocks ts us →
    Somewhere inside between blocks ts' us' → (ts'.length < ts.length ↔ us'.length < us.length)

theorem Lines.shown (lines : Lines strict inside between)
    (paired : Somewhere inside between blocks ts us) : headLexeme us = headLexeme ts ∨
      ¬ strict ∧ headLexeme ts = .endOfInput ∧
        ∃ name, headLexeme us = .name name ∧ isKeyword name = false :=
  paired.elim (fun paired => .inl (lines.same paired)) lines.front

theorem Lines.entered (lines : Lines strict inside between)
    (paired : Somewhere inside between blocks ts us) (content : (headLexeme ts).isContent = true) :
    inside blocks ts us :=
  paired.elim id fun paired => lines.begin paired content

/-- Where a question about the front has been answered. -/
def Asked (before inside : Pairing) (answer : Bool) : Pairing := fun ts us =>
  before ts us ∧ (answer = true → Content inside ts us)

/-- On a line, if something has been passed over. -/
def Entered (before inside : Pairing) : Bool → Pairing
  | true => inside
  | false => before

/-! ### Uses of expressions -/

section

variable {before : Pairing} {rule rule' : Reader Expr}

theorem reading_follows (e : Expr) :
    Follows strict before (reading e) (reading e) fun _ => before :=
  .either (.pure fun _ _ => id) .fail

theorem assigning_follows (e : Expr) :
    Follows strict before (assigning e) (assigning e) fun _ => before :=
  .either (.pure fun _ _ => id) .fail

theorem augmenting_follows (e : Expr) :
    Follows strict before (augmenting e) (augmenting e) fun _ => before := by
  unfold augmenting
  split
  · exact .pure fun _ _ => id
  · exact .fail

theorem deleting_follows (e : Expr) :
    Follows strict before (deleting e) (deleting e) fun _ => before := by
  unfold deleting
  split
  · exact .pure fun _ _ => id
  · exact .fail

theorem evaluated_follows (follows : Tracks strict before rule rule') :
    Tracks strict before (evaluated rule) (evaluated rule') :=
  follows.bind fun e => reading_follows e

end

/-! ### Simple statements -/

section

variable {R : Pairing} {level level' : Level} (parallel : Parallel strict R)
  (tracks : Level.Tracks strict R level level')

include parallel

theorem dottedName_tracks : Tracks strict R dottedName dottedName :=
  parallel.expectName.bind fun _ =>
    (parallel.manyWhile (parallel.eatOp (by decide)) parallel.expectName).bind
      fun _ => .pure fun _ _ => id

theorem importedModule_tracks : Tracks strict R importedModule importedModule :=
  (dottedName_tracks parallel).bind fun _ => .choose parallel.eatWord
    (parallel.expectName.bind fun _ => .pure fun _ _ => id) (.pure fun _ _ => id)

theorem importedName_tracks : Tracks strict R importedName importedName :=
  parallel.expectName.bind fun _ => .choose parallel.eatWord
    (parallel.expectName.bind fun _ => .pure fun _ _ => id) (.pure fun _ _ => id)

theorem importModules_tracks :
    Follows strict (Content R) importModules importModules fun _ => R :=
  parallel.advance.bind fun _ =>
    parallel.oneAndMore (parallel.eatOp (by decide)) (importedModule_tracks parallel)

theorem importNames_tracks :
    Follows strict (Content R) importNames importNames fun _ => R := by
  have ends : Refuses importedName .newline := Refuses.bind (.peek (.fail _))
  refine parallel.advance.bind fun _ =>
    (parallel.manyWhile (parallel.eatIf (parallel.isOneOf (by decide)))
      (.pure fun _ _ => id)).bind fun _ => parallel.isWord.forget.bind fun _ =>
      .skipped (dottedName_tracks parallel) ?_
  refine parallel.expectWord.bind fun _ => .choose (parallel.eatOp (by decide)) (.pure fun _ _ => id)
    (.choose (parallel.eatOp (by decide)) ?_ ?_)
  · have closed : ∀ names : List Stmt, Tracks strict R
        (do expectOp ")"; return names) (do expectOp ")"; return names) :=
      fun _ => parallel.expectOp.bind fun _ => .pure fun _ _ => id
    refine parallel.closing ends.bind.bind (.bind (.pure fun _ _ => And.left) closed) ?_
    exact (parallel.commaSeparated ends (importedName_tracks parallel)).bind closed
  · exact parallel.oneAndMore (parallel.eatOp (by decide)) (importedName_tracks parallel)

include tracks

theorem expressionStatement_tracks :
    Tracks strict R (expressionStatement level) (expressionStatement level') := by
  have anything := yieldOrTestList_tracks parallel tracks
  have value := evaluated_follows anything
  refine anything.bind fun first => .choose (parallel.eatOp (by decide)) ?_
    (.choose (parallel.eatIf (parallel.isOneOf (by decide))) ?_
      (.choose (parallel.isOp (by decide)) (.onLine ?_) ?_))
  · refine (evaluated_follows tracks.test).bind fun note => (parallel.eatOp (by decide)).bind fun _ =>
      .join (fun _ => R) (fun _ _ more => .either (value.single more) (.nothing more)) fun _ => ?_
    exact (assigning_follows first).bind fun _ => .pure fun _ _ => id
  · exact value.bind fun _ => (augmenting_follows first).bind fun _ => .pure fun _ _ => id
  · refine (parallel.manyWhile (parallel.eatOp (by decide)) anything).bind fun others => ?_
    exact (Follows.mapM fun e _ => reading_follows e).bind fun _ =>
      (Follows.mapM fun e _ => assigning_follows e).bind fun _ => .pure fun _ _ => id
  · exact (reading_follows first).bind fun _ => .pure fun _ _ => id

omit parallel in
/-- One expression that is evaluated, or two with something between them. -/
theorem oneOrTwo_tracks {question : Reader Bool} (asked : Tracks strict R question question) :
    Tracks strict R
      (do
        let first ← evaluated level.test
        if ← question then return [first, ← evaluated level.test] else return [first])
      (do
        let first ← evaluated level'.test
        if ← question then return [first, ← evaluated level'.test] else return [first]) := by
  have operand := evaluated_follows tracks.test
  exact operand.bind fun _ => .choose asked (operand.bind fun _ => .pure fun _ _ => id)
    (.pure fun _ _ => id)

end

/-! ### Lines of simple statements -/

/-- The rules for statements of a level read such lists alike. -/
structure Suite.Follows (strict : Prop) (inside between : Nat → Pairing) (suite : Suite) : Prop where
  level : ∀ blocks, Level.Tracks strict (inside blocks) suite.level suite.level
  block : ∀ blocks,
    Script.Follows strict (inside blocks) suite.block suite.block fun _ => between blocks

variable {suite : Suite} (lines : Lines strict inside between)

section

variable {level : Level} (tracks : Level.Tracks strict (inside blocks) level level)

include lines

theorem atLineEnd_tracks : Tracks strict (inside blocks) atLineEnd atLineEnd := by
  refine fun ts us paired => ⟨fun a ts' read => ?_, nofun⟩
  obtain ⟨⟩ := read
  exact ⟨us, by show Except.ok (_, us) = _; rw [lines.same paired], paired⟩

theorem atStatementEnd_tracks : Tracks strict (inside blocks) atStatementEnd atStatementEnd :=
  .choose (atLineEnd_tracks lines) (.pure fun _ _ => id)
    ((lines.inLine blocks).isOp (by decide)).forget

theorem expectLineEnd_follows :
    Follows strict (inside blocks) expectLineEnd expectLineEnd fun _ => between blocks := by
  have opened : ∀ ts us, inside blocks ts us → headLexeme us = headLexeme ts :=
    fun _ _ paired => lines.same paired
  refine .peek opened fun l => ?_
  cases l with
  | newline => exact .advance fun _ _ paired => lines.newline paired.1 paired.2
  | endOfInput => exact .pure fun ts us paired => absurd paired.2 (lines.ends paired.1)
  | _ => exact (lines.inLine blocks).unexpected.anywhere

include tracks

theorem simpleStatement_tracks :
    Tracks strict (inside blocks) (simpleStatement level) (simpleStatement level) := by
  have parallel := lines.inLine blocks
  have names : Tracks strict (inside blocks) (oneAndMore (eatOp ",") expectName)
      (oneAndMore (eatOp ",") expectName) :=
    parallel.oneAndMore (parallel.eatOp (by decide)) parallel.expectName
  have skipped : Follows strict (Content (inside blocks)) (do advance; return ([] : List Stmt))
      (do advance; return []) fun _ => inside blocks :=
    parallel.advance.bind fun _ => .pure fun _ _ => id
  have ended : Tracks strict (inside blocks) atStatementEnd atStatementEnd :=
    atStatementEnd_tracks lines
  refine parallel.keyword.bind fun word => ?_
  split
  · exact skipped.seen (by decide)
  · exact skipped.seen (by decide)
  · exact skipped.seen (by decide)
  · refine .seen (parallel.advance.bind fun _ => .choose ended (.pure fun _ _ => id) ?_) (by decide)
    exact (evaluated_follows (testList_tracks parallel tracks)).bind fun _ => .pure fun _ _ => id
  · refine .seen (parallel.advance.bind fun _ => .choose ended (.pure fun _ _ => id) ?_) (by decide)
    exact oneOrTwo_tracks tracks parallel.eatWord
  · exact .seen (parallel.advance.bind fun _ => names.bind fun _ => .pure fun _ _ => id) (by decide)
  · exact .seen (parallel.advance.bind fun _ => names.bind fun _ => .pure fun _ _ => id) (by decide)
  · refine .seen (parallel.advance.bind fun _ => ?_) (by decide)
    exact (targetList_tracks parallel tracks).bind fun target =>
      (deleting_follows target).bind fun _ => .pure fun _ _ => id
  · exact .seen (parallel.advance.bind fun _ => oneOrTwo_tracks tracks (parallel.eatOp (by decide)))
      (by decide)
  · exact (importModules_tracks parallel).seen (by decide)
  · exact (importNames_tracks parallel).seen (by decide)
  · exact (expressionStatement_tracks parallel tracks).front fun _ _ => And.left

theorem simpleLine_follows :
    Follows strict (inside blocks) (simpleLine level) (simpleLine level) fun _ => between blocks := by
  have parallel := lines.inLine blocks
  refine (parallel.oneAndMore ?_ (simpleStatement_tracks lines tracks)).bind fun _ =>
    (expectLineEnd_follows lines).bind fun _ => .pure fun _ _ => id
  refine .choose (parallel.eatOp (by decide))
    ((atLineEnd_tracks lines).bind fun _ => .pure fun _ _ => id) (.pure fun _ _ => id)

end

/-! ### Compound statements -/

section

variable {before : Pairing} (sound : Suite.Follows strict inside between suite)

include lines

/-- A question about what stands on a line or begins one. -/
theorem question_follows {question : Reader Bool} (asked : Lexeme → Bool)
    (answers : ∀ ts, question ts = .ok (asked (headLexeme ts), ts))
    (names : ∀ name, isKeyword name = false → asked (.name name) = false)
    (content : ∀ l, asked l = true → l.isContent = true)
    (lies : Within before (Somewhere inside between blocks)) :
    Follows strict before question question (Asked before (inside blocks)) := by
  refine fun ts us paired => ⟨fun a ts' read => ?_, fun _ e failed => ?_⟩
  · obtain ⟨⟩ := (answers ts).symm.trans read
    have same : asked (headLexeme us) = asked (headLexeme ts) := by
      rcases lines.shown (lies ts us paired) with same | ⟨-, ended, name, shown, other⟩
      · rw [same]
      · rw [shown, names name other, ended]
        exact (Bool.eq_false_iff.mpr fun yes => by cases content _ yes).symm
    exact ⟨us, by rw [answers us, same], paired, fun answer =>
      ⟨lines.entered (lies ts us paired) (content _ answer), content _ answer⟩⟩
  · cases (answers ts).symm.trans failed

theorem eatIf_follows {here : Reader Bool}
    (asked : Follows strict before here here (Asked before (inside blocks))) :
    Follows strict before (eatIf here) (eatIf here) (Entered before (inside blocks)) := by
  refine .choose asked (.front ?_ fun _ _ paired => paired.2 rfl) (.pure fun _ _ => And.left)
  exact (lines.inLine blocks).advance.bind fun _ => .pure fun _ _ => id

theorem isWord_asked {word : String} (reserved : isKeyword word = true)
    (lies : Within before (Somewhere inside between blocks)) :
    Follows strict before (isWord word) (isWord word) (Asked before (inside blocks)) := by
  refine question_follows lines (· == .name word) (fun _ => rfl) (fun name other => ?_)
    (fun _ here => beq_iff_eq.mp here ▸ rfl) lies
  refine beq_eq_false_iff_ne.mpr fun same => ?_
  obtain ⟨⟩ := same
  cases reserved.symm.trans other

/-- A keyword that a line may begin with: that line is entered. -/
theorem eatWord_follows {word : String} (lies : Within before (Somewhere inside between blocks))
    (reserved : isKeyword word = true) :
    Follows strict before (eatWord word) (eatWord word) (Entered before (inside blocks)) :=
  eatIf_follows lines (isWord_asked lines reserved lies)

theorem eatOp_follows {op : String} (lies : Within before (Somewhere inside between blocks)) :
    Follows strict before (eatOp op) (eatOp op) (Entered before (inside blocks)) :=
  eatIf_follows lines <| question_follows lines (· == .op op) (fun _ => rfl) (fun _ _ => rfl)
    (fun _ here => beq_iff_eq.mp here ▸ rfl) lies

theorem isWord_follows {word : String} (lies : Within before (Somewhere inside between blocks))
    (reserved : isKeyword word = true) :
    Follows strict before (isWord word) (isWord word) fun _ => before :=
  (isWord_asked lines reserved lies).weaken (fun _ _ => id) fun _ _ _ => And.left

/-- What is done depends on the lexeme that a line begins with, and at the end of input it fails. -/
theorem peekOrFail_follows {rest rest' : Lexeme → Reader α} {behind : α → Pairing}
    (refuses : Refuses (rest .endOfInput) .endOfInput)
    (each : ∀ l, Follows strict (At (between blocks) l) (rest l) (rest' l) behind) :
    Follows strict (between blocks) (peek >>= rest) (peek >>= rest') behind := by
  intro ts us paired
  rcases lines.front paired with same | ⟨lax, ended, -⟩
  · have shown : (peek >>= rest') us = rest' (headLexeme ts) us := by
      rw [← same]
      rfl
    rw [shown]
    exact each _ ts us ⟨paired, rfl⟩
  · obtain ⟨e, failed⟩ := Refuses.peek refuses ts ended
    refine ⟨fun a ts' read => ?_, fun exactly => absurd exactly lax⟩
    cases read.symm.trans failed

/-- A keyword that a line may begin with. -/
theorem keyword_follows (lies : Within before (Somewhere inside between blocks)) :
    Follows strict before keyword keyword (Seen before) := by
  refine fun ts us paired => ⟨fun word ts' read => ?_, fun _ e failed => ?_⟩
  · obtain ⟨⟩ := (keyword_eq ts).symm.trans read
    have same : (headLexeme us).keyword = (headLexeme ts).keyword := by
      rcases lines.shown (lies ts us paired) with same | ⟨-, ended, name, shown, other⟩
      · rw [same]
      · rw [shown, ended, Lexeme.keyword, other]
        rfl
    exact ⟨us, by rw [keyword_eq us, same], paired, Lexeme.isContent_of_keyword⟩
  · cases (keyword_eq ts).symm.trans failed

include sound

theorem conditionAndBlock_follows :
    Follows strict (inside blocks) (conditionAndBlock suite) (conditionAndBlock suite)
      fun _ => between blocks :=
  (evaluated_follows (namedTest_tracks (lines.inLine blocks) (sound.level blocks))).bind fun _ =>
    (sound.block blocks).bind fun _ => .pure fun _ _ => id

theorem blockBehind_follows {word : String} (reserved : isKeyword word = true) :
    Follows strict (between blocks) (blockBehind suite word) (blockBehind suite word)
      fun _ => between blocks :=
  .choose (eatWord_follows lines (fun _ _ => .inr) reserved) (sound.block blocks) (.pure fun _ _ => id)

omit sound in
/-- Parts behind words of their own, each with its block. -/
theorem manyBlocks_follow {more : Reader Bool} {part part' : Reader α}
    (asked : Follows strict (between blocks) more more (Entered (between blocks) (inside blocks)))
    (follows : Follows strict (inside blocks) part part' fun _ => between blocks) :
    Follows strict (between blocks) (manyWhile more part) (manyWhile more part')
      fun _ => between blocks := by
  refine .many ?_ (fun paired further => lines.shorter (.inr paired) (.inr further))
    fun _ _ _ _ _ _ paired _ => .inr paired
  refine .choose asked (follows.bind fun _ => .pure fun _ _ => id) (.pure fun _ _ => id)

theorem functionDefinition_follows :
    Follows strict (Content (inside blocks)) (functionDefinition suite) (functionDefinition suite)
      fun _ => between blocks := by
  have parallel := lines.inLine blocks
  have tracks := sound.level blocks
  refine parallel.advance.bind fun _ => parallel.expectName.bind fun name =>
    parallel.expectOp.bind fun _ => (parameters_tracks parallel tracks ")" true).bind fun ps =>
      parallel.expectOp.bind fun _ => (Follows.mapM fun e _ => reading_follows e).bind fun reads =>
        (parallel.eatOp (by decide)).bind fun _ => .join (fun _ => inside blocks)
          (fun _ _ more => .either ((evaluated_follows tracks.test).single more) (.nothing more))
          fun _ => (sound.block blocks).bind fun _ => .pure fun _ _ => id

theorem classDefinition_follows :
    Follows strict (Content (inside blocks)) (classDefinition suite) (classDefinition suite)
      fun _ => between blocks := by
  have parallel := lines.inLine blocks
  have arguments := arguments_tracks parallel (sound.level blocks)
  have bases : ∀ es : List Expr,
      Tracks strict (inside blocks) (es.mapM reading) (es.mapM reading) :=
    fun _ => .mapM fun e _ => reading_follows e
  refine parallel.advance.bind fun _ => parallel.expectName.bind fun name =>
    (parallel.eatOp (by decide)).bind fun _ => .join (fun _ => inside blocks)
      (fun _ _ more => .either (arguments.bind fun es => (bases es).bind more) (.nothing more))
      fun _ => (sound.block blocks).bind fun _ => .pure fun _ _ => id

theorem ifStatement_follows :
    Follows strict (Content (inside blocks)) (ifStatement suite) (ifStatement suite)
      fun _ => between blocks := by
  have branch : Follows strict (inside blocks) (conditionAndBlock suite) (conditionAndBlock suite)
      fun _ => between blocks := conditionAndBlock_follows lines sound
  have branches : Follows strict (inside blocks)
      (oneAndMore (eatWord "elif") (conditionAndBlock suite))
      (oneAndMore (eatWord "elif") (conditionAndBlock suite)) fun _ => between blocks :=
    have more := manyBlocks_follow lines (eatWord_follows lines (fun _ _ => .inr) (by decide)) branch
    branch.bind fun _ => more.bind fun _ => .pure fun _ _ => id
  exact (lines.inLine blocks).advance.bind fun _ => branches.bind fun _ =>
    (blockBehind_follows lines sound (by decide)).bind fun _ => .pure fun _ _ => id

theorem whileStatement_follows :
    Follows strict (Content (inside blocks)) (whileStatement suite) (whileStatement suite)
      fun _ => between blocks :=
  (lines.inLine blocks).advance.bind fun _ => (conditionAndBlock_follows lines sound).bind fun _ =>
    (blockBehind_follows lines sound (by decide)).bind fun _ => .pure fun _ _ => id

theorem forStatement_follows :
    Follows strict (Content (inside blocks)) (forStatement suite) (forStatement suite)
      fun _ => between blocks := by
  have parallel := lines.inLine blocks
  have tracks := sound.level blocks
  exact parallel.advance.bind fun _ => (targetList_tracks parallel tracks).bind fun target =>
    parallel.expectWord.bind fun _ => (evaluated_follows (testList_tracks parallel tracks)).bind
      fun _ => (assigning_follows target).bind fun _ => (sound.block blocks).bind fun _ =>
        (blockBehind_follows lines sound (by decide)).bind fun _ => .pure fun _ _ => id

theorem handler_follows :
    Follows strict (inside blocks) (handler suite) (handler suite) fun _ => between blocks := by
  have parallel := lines.inLine blocks
  have block : ∀ kind, Follows strict (inside blocks)
      (do return kind ++ (← suite.block)) (do return kind ++ (← suite.block))
      fun _ => between blocks :=
    fun _ => (sound.block blocks).bind fun _ => .pure fun _ _ => id
  refine (parallel.eatOp (by decide)).bind fun _ =>
    .choose (parallel.isOp (by decide)) (.onLine (.nothing block)) ?_
  refine (evaluated_follows (sound.level blocks).test).bind fun kind => .choose parallel.eatWord ?_ ?_
  · exact parallel.expectName.bind fun _ => .nothing block
  · exact .nothing block

theorem tryStatement_follows :
    Follows strict (Content (inside blocks)) (tryStatement suite) (tryStatement suite)
      fun _ => between blocks := by
  have handlers : Follows strict (between blocks)
      (manyWhile (eatWord "except") (handler suite)) (manyWhile (eatWord "except") (handler suite))
      fun _ => between blocks :=
    manyBlocks_follow lines (eatWord_follows lines (fun _ _ => .inr) (by decide))
      (handler_follows lines sound)
  refine (lines.inLine blocks).advance.bind fun _ => (sound.block blocks).bind fun _ =>
    handlers.bind fun _ => (blockBehind_follows lines sound (by decide)).bind fun _ => ?_
  exact (isWord_follows lines (fun _ _ => .inr) (by decide)).bind fun _ =>
    (blockBehind_follows lines sound (by decide)).bind fun _ => .either .fail (.pure fun _ _ => id)

theorem manager_tracks : Tracks strict (inside blocks) (manager suite) (manager suite) := by
  have parallel := lines.inLine blocks
  have tracks := sound.level blocks
  refine (evaluated_follows tracks.test).bind fun _ => .choose parallel.eatWord ?_
    (.pure fun _ _ => id)
  exact (starOr_tracks parallel tracks (tracks.again .arithmetic)).bind fun target =>
    (assigning_follows target).bind fun _ => .pure fun _ _ => id

theorem withStatement_follows :
    Follows strict (Content (inside blocks)) (withStatement suite) (withStatement suite)
      fun _ => between blocks := by
  have parallel := lines.inLine blocks
  exact parallel.advance.bind fun _ =>
    (parallel.oneAndMore (parallel.eatOp (by decide)) (manager_tracks lines sound)).bind fun _ =>
      (sound.block blocks).bind fun _ => .pure fun _ _ => id

theorem decorated_follows :
    Follows strict (inside blocks) (decorated suite) (decorated suite) fun _ => between blocks := by
  have parallel := lines.inLine blocks
  -- in front of the first decorator there is a line, behind each one there is the end of a line
  have decorator : Follows strict (inside blocks)
      (do
        let decorator ← evaluated (namedTest suite.level)
        expectLineEnd
        return decorator)
      (do
        let decorator ← evaluated (namedTest suite.level)
        expectLineEnd
        return decorator) fun _ => Somewhere inside between blocks :=
    (evaluated_follows (namedTest_tracks parallel (sound.level blocks))).bind fun _ =>
      (expectLineEnd_follows lines).bind fun _ => .pure fun _ _ => .inr
  have decorators : Follows strict (Somewhere inside between blocks)
      (manyWhile (eatOp "@") (do
        let decorator ← evaluated (namedTest suite.level)
        expectLineEnd
        return decorator))
      (manyWhile (eatOp "@") (do
        let decorator ← evaluated (namedTest suite.level)
        expectLineEnd
        return decorator)) fun _ => Somewhere inside between blocks :=
    .many (.choose (eatOp_follows lines fun _ _ => id) (decorator.bind fun _ => .pure fun _ _ => id)
      (.pure fun _ _ => id)) lines.shorter fun _ _ _ _ _ _ paired _ => .inr paired
  refine .bind (decorators.front fun _ _ => .inl) fun _ =>
    (eatWord_follows lines (fun _ _ => id) (by decide)).bind fun async => ?_
  have lies : Within (Entered (Somewhere inside between blocks) (inside blocks) async)
      (Somewhere inside between blocks) := by
    cases async with
    | true => exact fun _ _ => .inl
    | false => exact fun _ _ => id
  have onLine : ∀ {word : String}, word ≠ "" →
      Within (Seen (Entered (Somewhere inside between blocks) (inside blocks) async) word)
        (Content (inside blocks)) :=
    fun some ts us paired =>
      ⟨lines.entered (lies ts us paired.1) (paired.2 some), paired.2 some⟩
  refine (keyword_follows lines lies).bind fun word => ?_
  split
  · refine .front ?_ (onLine (by decide))
    exact (functionDefinition_follows lines sound).bind fun _ => .pure fun _ _ => id
  · refine .front ?_ (onLine (by decide))
    exact (classDefinition_follows lines sound).bind fun _ => .pure fun _ _ => id
  · exact .fail

/-- A statement is read alike. -/
theorem statement_follows :
    Follows strict (inside blocks) (statement suite) (statement suite)
      fun _ => between blocks := by
  have parallel := lines.inLine blocks
  refine .peek (fun _ _ => lines.same) fun l => ?_
  split
  · exact (decorated_follows lines sound).anywhere
  · exact .fail
  · exact .fail
  · refine .bind parallel.keyword.anywhere fun word => ?_
    split
    · exact (functionDefinition_follows lines sound).seen (by decide)
    · exact (classDefinition_follows lines sound).seen (by decide)
    · exact (ifStatement_follows lines sound).seen (by decide)
    · exact (whileStatement_follows lines sound).seen (by decide)
    · exact (forStatement_follows lines sound).seen (by decide)
    · exact (tryStatement_follows lines sound).seen (by decide)
    · exact (withStatement_follows lines sound).seen (by decide)
    · refine .seen (parallel.advance.bind fun _ => parallel.keyword.bind fun word => ?_) (by decide)
      split
      · exact (functionDefinition_follows lines sound).seen (by decide)
      · exact (forStatement_follows lines sound).seen (by decide)
      · exact (withStatement_follows lines sound).seen (by decide)
      · exact parallel.unexpected.front fun _ _ => And.left
    · exact (simpleLine_follows lines (sound.level blocks)).front fun _ _ => And.left

end

/-! ### Blocks -/

theorem length_drop_le (ts : List Token) : (ts.drop 1).length ≤ ts.length := by
  rw [List.length_drop]
  exact Nat.sub_le _ _

theorem length_drop_lt (more : headLexeme ts ≠ .endOfInput) : (ts.drop 1).length < ts.length := by
  cases ts with
  | nil => exact absurd rfl more
  | cons => exact Nat.lt_succ_self _

/-- Lists that are no longer than a given one, and shorter between lines. -/
theorem Lines.within (lines : Lines strict inside between) (length : Nat) :
    Lines strict (fun blocks ts us => inside blocks ts us ∧ ts.length ≤ length)
      (fun blocks ts us => between blocks ts us ∧ ts.length < length) where
  inLine blocks :=
    { head := fun paired => (lines.inLine blocks).head paired.1
      drop := fun paired content =>
        ⟨(lines.inLine blocks).drop paired.1 content, (length_drop_le _).trans paired.2⟩
      shorter := fun paired further => (lines.inLine blocks).shorter paired.1 further.1 }
  same paired := lines.same paired.1
  ends paired := lines.ends paired.1
  front paired := lines.front paired.1
  closes paired := lines.closes paired.1
  filled paired := lines.filled paired.1
  begin paired content := ⟨lines.begin paired.1 content, paired.2.le⟩
  newline paired shown :=
    ⟨lines.newline paired.1 shown, (length_drop_lt (lines.ends paired.1)).trans_le paired.2⟩
  indent paired shown := ⟨lines.indent paired.1 shown, (length_drop_le _).trans_lt paired.2⟩
  dedent paired shown := ⟨lines.dedent paired.1 shown, (length_drop_le _).trans_lt paired.2⟩
  shorter paired further :=
    lines.shorter (paired.imp And.left And.left) (further.imp And.left And.left)

/-- The rules for statements of a level read all such lists alike. -/
def Suite.Parallel (suite : Suite) : Prop :=
  ∀ ⦃strict inside between⦄, Lines strict inside between → suite.Follows strict inside between

variable (sound : suite.Parallel) (lines : Lines strict inside between)

include sound lines

/-- A statement is not read from nothing. -/
theorem statement_reads {statements : List Stmt} (paired : inside blocks ts us)
    (read : statement suite ts = .ok (statements, ts')) : ts'.length < ts.length := by
  have within := lines.within ts.length
  obtain ⟨us', -, further⟩ :=
    (statement_follows within (sound within) ts us ⟨paired, Nat.le_refl _⟩).1 _ _ read
  exact further.2

/-- What stands in a block is read alike up to its end, which is passed over. -/
theorem blockItem?_follows :
    Follows strict (between (blocks + 1)) (blockItem? suite) (blockItem? suite)
      fun found => if found.isSome then between (blocks + 1) else between blocks := by
  have same : ∀ ts us, between (blocks + 1) ts us → headLexeme us = headLexeme ts :=
    fun ts us paired => (lines.front paired).resolve_right fun ended => lines.closes paired ended.2.1
  have item : Follows strict (inside (blocks + 1))
      (do return some (← statement suite)) (do return some (← statement suite))
      fun found => if found.isSome then between (blocks + 1) else between blocks :=
    (statement_follows lines (sound lines)).bind fun _ => .pure fun _ _ => id
  have onLine : ∀ {l : Lexeme}, l.isContent = true →
      Within (At (between (blocks + 1)) l) (inside (blocks + 1)) :=
    fun content ts us paired => lines.begin paired.1 (paired.2 ▸ content)
  refine .peek same fun l => ?_
  cases l with
  | dedent =>
    have passed : Follows strict (At (between (blocks + 1)) .dedent) advance advance
        fun _ => between blocks := .advance fun _ _ paired => lines.dedent paired.1 paired.2
    exact passed.bind fun _ => .pure fun _ _ => id
  | endOfInput => exact .pure fun ts us paired => absurd paired.2 (lines.closes paired.1)
  | newline => exact fun ts us paired => absurd paired.2 (lines.filled paired.1)
  | indent =>
    have refused : Follows strict (At (between (blocks + 1)) .indent) (statement suite)
        (statement suite) fun _ => between (blocks + 1) := .peekAt same .fail
    exact refused.bind fun _ => .pure fun _ _ => id
  | _ => exact item.front (onLine rfl)

/-- Nor is what stands in a block. -/
theorem blockItem?_reads {statements : List Stmt} (paired : between (blocks + 1) ts us)
    (read : blockItem? suite ts = .ok (some statements, ts')) : ts'.length < ts.length := by
  have further : ∀ {l : Lexeme}, l.isContent = true → headLexeme ts = l →
      (do return some (← statement suite)) ts = .ok (some statements, ts') →
      ts'.length < ts.length := by
    intro l content shown read
    obtain ⟨⟨a, between⟩, one, read⟩ := bind_eq_ok_iff.mp read
    obtain ⟨⟩ := read
    exact statement_reads lines sound (lines.begin paired (shown ▸ content)) one
  unfold blockItem? at read
  rw [run_bind_of_ok (rfl : peek ts = .ok (headLexeme ts, ts))] at read
  cases shown : headLexeme ts with
  | dedent => rw [shown] at read; cases read
  | endOfInput => exact absurd shown (lines.closes paired)
  | newline => exact absurd shown (lines.filled paired)
  | indent =>
    rw [shown] at read
    obtain ⟨⟨a, between⟩, one, -⟩ := bind_eq_ok_iff.mp read
    have refuses : Refuses (statement suite) .indent := .peek (.fail _)
    obtain ⟨e, failed⟩ := refuses ts shown
    cases one.symm.trans failed
  | _ => rw [shown] at read; exact further rfl shown read

theorem blockItems_follow :
    Follows strict (between (blocks + 1)) (many (blockItem? suite)) (many (blockItem? suite))
      fun _ => between blocks :=
  .many (blockItem?_follows lines sound)
    (fun paired further => lines.shorter (.inr paired) (.inr further))
    fun _ _ _ _ _ paired _ read => .inl (blockItem?_reads lines sound paired read)

theorem indentedBlock_follows :
    Follows strict (inside blocks) (indentedBlock suite) (indentedBlock suite)
      fun _ => between blocks := by
  have parallel := lines.inLine blocks
  have onLine := simpleLine_follows lines ((sound lines).level blocks)
  refine parallel.expectOp.bind fun _ => .peek (fun _ _ => lines.same) fun l => ?_
  split
  · have ended : Follows strict (At (inside blocks) .newline) advance advance
        fun _ => between blocks := .advance fun _ _ paired => lines.newline paired.1 paired.2
    refine ended.bind fun _ => peekOrFail_follows lines (.fail _) fun l => ?_
    split
    · have opened : Follows strict (At (between blocks) .indent) advance advance
          fun _ => between (blocks + 1) := .advance fun _ _ paired => lines.indent paired.1 paired.2
      exact opened.bind fun _ => (blockItems_follow lines sound).bind fun _ => .pure fun _ _ => id
    · exact .fail
  · exact onLine.anywhere

omit sound lines in
/-- However much room is left, the rules for statements read such lists alike. -/
theorem Suite.Parallel.withRoom (n : Nat) : (Suite.withRoom n).Parallel := by
  intro strict inside between lines
  induction n generalizing strict inside between with
  | zero => exact ⟨fun blocks => .withRoom (lines.inLine blocks) 0, fun _ => .fail⟩
  | succ n ih =>
    exact ⟨fun blocks => .withRoom (lines.inLine blocks) (n + 1), fun _ =>
      indentedBlock_follows lines ih⟩

end ConceptForest.Script
