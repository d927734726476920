import ConceptForest.Proofs.Script.Parser.Runs

/-!
Rules of a parser that do nothing to the scopes.

A rule that reads an expression, or what an expression is made of, runs as its reader does whatever
the scopes are, and leaves them as they were (`Agrees`, which stands beside `Runs`). What `Runs` says
of each way to put rules together is said here once more, without the scopes.
-/

namespace ConceptForest.Script

namespace Parser

variable {n k j : Nat} {front : List Token → Prop} {α β γ δ : Type} {question : Rule Bool}
  {question' : Reader Bool} {asked : Lexeme → Bool}

/-! ### Questions -/

/-- Is the logical line, or the snippet, at its end with the lexeme? -/
def endsLine : Lexeme → Bool
  | .newline | .endOfInput => true
  | _ => false

theorem isOp_asks (op : String) : Asks (isOp op) (Reader.isOp op) (· == .op op) :=
  ⟨rfl, rfl⟩

theorem isWord_asks (word : String) : Asks (isWord word) (Reader.isWord word) (· == .name word) :=
  ⟨rfl, rfl⟩

theorem isOneOf_asks (ops : List String) :
    Asks (isOneOf ops) (Reader.isOneOf ops) (·.isAmong ops) := by
  refine ⟨?_, funext (isOneOf_eq ops)⟩
  unfold isOneOf
  congr 1
  funext l
  cases l <;> rfl

theorem startsExpression_asks :
    Asks startsExpression Reader.startsExpression Lexeme.opensExpression := by
  refine ⟨?_, funext startsExpression_eq⟩
  unfold startsExpression
  congr 1
  funext l
  cases l <;> rfl

theorem atLineEnd_asks : Asks atLineEnd Reader.atLineEnd endsLine := by
  constructor
  · unfold atLineEnd
    congr 1
  · unfold Reader.atLineEnd
    congr 1

namespace Agrees

variable {m m' : Rule α} {r r' : Reader α} {f : α → Rule β} {g : α → Reader β} {a : α}

/-! ### One after the other -/

theorem pure : Agrees n k front (pure a) (pure a) :=
  fun _ => .pure rfl rfl

theorem bind (first : Agrees n k front m r) (further : ∀ a, Agrees n k Anywhere (f a) (g a)) :
    Agrees n k front (m >>= f) (r >>= g) :=
  fun scopes => (first scopes).bind fun a => further a scopes

theorem past (first : Agrees n k front m r) (passes : Reads Anywhere r fun _ read => read ≠ [])
    (further : ∀ a, Agrees n (k - 1) Anywhere (f a) (g a)) :
    Agrees n k front (m >>= f) (r >>= g) :=
  fun scopes => (first scopes).past passes fun a => further a scopes

theorem mono (agrees : Agrees n k front m r) (less : j ≤ k) : Agrees n j front m r :=
  fun scopes => (agrees scopes).mono less

theorem under (agrees : Agrees n k Anywhere m r) : Agrees n k front m r :=
  fun scopes => (agrees scopes).under

/-- What stands behind a branching is shared by its branches. -/
theorem join {jump : α → Rule β} {jump' : α → Reader β} {branches : (α → Rule β) → Rule β}
    {branches' : (α → Reader β) → Reader β}
    (each : ∀ next next', (∀ a, Agrees n k Anywhere (next a) (next' a)) →
      Agrees n k front (branches next) (branches' next'))
    (more : ∀ a, Agrees n k Anywhere (jump a) (jump' a)) :
    Agrees n k front (have next := jump; branches next) (have next := jump'; branches' next) :=
  each jump jump' more

/-- A branch that reads nothing. -/
theorem nothing (more : ∀ a, Agrees n k Anywhere (f a) (g a)) :
    Agrees n k front (Pure.pure a >>= f) (Pure.pure a >>= g) :=
  pure.bind more

/-- A branch that reads one thing. -/
theorem single {f : List α → Rule β} {g : List α → Reader β} (agrees : Agrees n k front m r)
    (more : ∀ as, Agrees n k Anywhere (f as) (g as)) :
    Agrees n k front (m >>= fun a => Pure.pure [a] >>= f) (r >>= fun a => Pure.pure [a] >>= g) :=
  agrees.bind fun _ => nothing more

/-- Where rule and reader can be run they may be replaced. -/
theorem congr (rule : ∀ p : Parser, p.Fits n k → m p = m' p)
    (reader : ∀ p : Parser, p.Fits n k → r p.rest = r' p.rest) (agrees : Agrees n k front m' r') :
    Agrees n k front m r :=
  fun scopes => (agrees scopes).congr rule reader

/-! ### Branches -/

theorem either {condition : Prop} [Decidable condition] (yes : Agrees n k front m r)
    (no : Agrees n k front m' r') :
    Agrees n k front (if condition then m else m') (if condition then r else r') :=
  fun scopes => .either (fun _ => yes scopes) fun _ => no scopes

/-- One rule or the other, depending on what is at the front. -/
theorem choose (asked : Agrees n k front question question') (yes : Agrees n k Anywhere m r)
    (no : Agrees n k Anywhere m' r') :
    Agrees n k front (question >>= fun answer => if answer = true then m else m')
      (question' >>= fun answer => if answer = true then r else r') :=
  asked.bind fun _ => either yes no

theorem eat (asks : Asks question question' asked) (inside : asked .endOfInput = false)
    (yes : Agrees n (k - 1) Anywhere m r) (no : Agrees n k front m' r') :
    Agrees n k front (eatIf question >>= fun answer => if answer = true then m else m')
      (Reader.eatIf question' >>= fun answer => if answer = true then r else r') :=
  fun scopes => .eat asks inside (yes scopes) (no scopes)

theorem atWord {word : String}
    (yes : Agrees n k (fun us => front us ∧ headLexeme us = .name word) m r)
    (no : Agrees n k front m' r') :
    Agrees n k front (Parser.isWord word >>= fun answer => if answer = true then m else m')
      (Reader.isWord word >>= fun answer => if answer = true then r else r') :=
  fun scopes => .atWord (yes scopes) (no scopes)

/-! ### Looking at the tokens -/

theorem peek {f : Lexeme → Rule β} {g : Lexeme → Reader β}
    (each : ∀ l, Agrees n k (fun us => front us ∧ headLexeme us = l) (f l) (g l)) :
    Agrees n k front (peek >>= f) (Reader.peek >>= g) :=
  fun scopes => .peek fun l => each l scopes

theorem peekSecond {f : Lexeme → Rule β} {g : Lexeme → Reader β}
    (each : ∀ l, Agrees n k (fun us => front us ∧ headLexeme (us.drop 1) = l) (f l) (g l)) :
    Agrees n k front (peekSecond >>= f) (Reader.peekSecond >>= g) :=
  fun scopes => .peekSecond fun l => each l scopes

theorem position {f : Text.Position → Rule β} {g : Text.Position → Reader β}
    (each : ∀ here, Agrees n k front (f here) (g here)) :
    Agrees n k front (position >>= f) (Reader.position >>= g) :=
  fun scopes => .position fun here => each here scopes

theorem skip (inside : ∀ us, front us → headLexeme us ≠ .endOfInput)
    (further : Agrees n (k - 1) (fun us => ∃ t, front (t :: us)) m r) :
    Agrees n k front (advance >>= fun _ => m) (Reader.advance >>= fun _ => r) :=
  fun scopes => .skip inside (further scopes)

/-- Passes over two tokens that are known not to be the end. -/
theorem skipTwo (first : ∀ us, front us → headLexeme us ≠ .endOfInput)
    (second : ∀ us, front us → headLexeme (us.drop 1) ≠ .endOfInput)
    (further : Agrees n (k - 1 - 1) Anywhere m r) :
    Agrees n k front (advance >>= fun _ => advance >>= fun _ => m)
      (Reader.advance >>= fun _ => Reader.advance >>= fun _ => r) :=
  skip first (skip (fun us ⟨t, here⟩ => second (t :: us) here) further.under)

theorem ask (asks : Asks question question' asked) : Agrees n k front question question' := by
  intro scopes
  have whole : question >>= Pure.pure = question := bind_pure _
  have whole' : question' >>= Pure.pure = question' := bind_pure _
  rw [← whole, ← whole']
  exact .ask asks fun _ => .pure rfl rfl

theorem eatIf (asks : Asks question question' asked) (inside : asked .endOfInput = false) :
    Agrees n k front (eatIf question) (Reader.eatIf question') := by
  refine fun scopes => .ask asks fun answer => ?_
  cases answer with
  | true =>
    refine .skip (fun us here last => ?_) (.pure rfl rfl)
    rw [last, inside] at here
    cases here.2
  | false => exact .pure rfl rfl

/-! ### Failures -/

theorem throw {e : SyntaxError} : Agrees n k front (throw e : Rule α) (throw e : Reader α) :=
  fun _ => .throw

theorem fail {fault : Fault} :
    Agrees n k front (fail fault : Rule α) (Reader.fail fault : Reader α) :=
  fun _ => .fail

theorem unexpected : Agrees n k front (unexpected : Rule α) (Reader.unexpected : Reader α) :=
  fun _ => .unexpected

/-! ### Repetition -/

theorem many {turn : Rule (Option α)} {turn' : Reader (Option α)}
    (each : Agrees n k Anywhere turn turn') :
    Agrees n k front (many turn) (Reader.many turn') := by
  have turns : ∀ scopes, Runs n k Anywhere scopes turn turn' (Option.map fun a => a)
      fun found => found.elim scopes fun _ => scopes := by
    intro scopes
    have same : (Option.map fun a : α => a) = fun found => found := funext fun _ => Option.map_id'
    have kept : (fun found : Option α => found.elim scopes fun _ => scopes) = fun _ => scopes :=
      funext fun found => by cases found <;> rfl
    rw [same, kept]
    exact each scopes
  intro scopes
  have runs : Runs n k front scopes _ _ _ _ := .many turns
  have same : (List.map fun a : α => a) = fun as => as := funext List.map_id'
  have kept : ∀ as : List α, as.foldl (fun scopes _ => scopes) scopes = scopes := fun as => by
    induction as with
    | nil => rfl
    | cons a as ih => exact ih
  rwa [same, funext kept] at runs

theorem manyWhile {more : Rule Bool} {more' : Reader Bool} (asked : Agrees n k Anywhere more more')
    (item : Agrees n k Anywhere m r) :
    Agrees n k front (manyWhile more m) (Reader.manyWhile more' r) :=
  many (choose asked (item.bind fun _ => pure) pure)

theorem oneAndMore {more : Rule Bool} {more' : Reader Bool} (asked : Agrees n k Anywhere more more')
    (item : Agrees n k Anywhere m r) :
    Agrees n k front (oneAndMore more m) (Reader.oneAndMore more' r) :=
  item.under.bind fun _ => (manyWhile asked item).bind fun _ => pure

/-! ### The words and marks of the grammar -/

section

variable {op word : String} {ops : List String}

theorem isOp : Agrees n k front (isOp op) (Reader.isOp op) :=
  ask (isOp_asks op)

theorem isWord : Agrees n k front (isWord word) (Reader.isWord word) :=
  ask (isWord_asks word)

theorem isOneOf : Agrees n k front (isOneOf ops) (Reader.isOneOf ops) :=
  ask (isOneOf_asks ops)

theorem startsExpression : Agrees n k front startsExpression Reader.startsExpression :=
  ask startsExpression_asks

theorem atLineEnd : Agrees n k front atLineEnd Reader.atLineEnd :=
  ask atLineEnd_asks

theorem eatOp : Agrees n k front (eatOp op) (Reader.eatOp op) :=
  eatIf (isOp_asks op) rfl

theorem eatWord : Agrees n k front (eatWord word) (Reader.eatWord word) :=
  eatIf (isWord_asks word) rfl

theorem eatOneOf : Agrees n k front (Parser.eatIf (Parser.isOneOf ops))
    (Reader.eatIf (Reader.isOneOf ops)) :=
  eatIf (isOneOf_asks ops) rfl

theorem expectOp : Agrees n k front (expectOp op) (Reader.expectOp op) :=
  choose eatOp pure (peek fun _ => fail)

theorem expectWord : Agrees n k front (expectWord word) (Reader.expectWord word) :=
  choose eatWord pure (peek fun _ => fail)

theorem expectName : Agrees n k front expectName Reader.expectName := by
  refine peek fun l => ?_
  cases l with
  | name text =>
    refine either fail (skip (fun us here => ?_) pure)
    rw [here.2]
    exact Lexeme.noConfusion
  | _ => exact fail

theorem expectLineEnd : Agrees n k front expectLineEnd Reader.expectLineEnd := by
  refine peek fun l => ?_
  cases l with
  | newline => exact fun _ => .advance fun us here last => by cases here.2.symm.trans last
  | endOfInput => exact pure
  | _ => exact unexpected

theorem commaSeparated {stop : Rule Bool} {stop' : Reader Bool}
    (asked : Agrees n k Anywhere stop stop') (item : Agrees n k Anywhere m r) :
    Agrees n k front (commaSeparated stop m) (Reader.commaSeparated stop' r) :=
  oneAndMore (choose eatOp (asked.bind fun _ => pure) pure) item

end

end Agrees

end Parser

end ConceptForest.Script
