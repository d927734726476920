import ConceptForest.Proofs.Script.Parser.Statements
import ConceptForest.Proofs.Script.Passing.Progress

/-!
Calls of a parser move on and leave things in order.

A rule of the grammar, called anywhere in front of the end of the tokens, goes on by at least one of
them and stops in front of the end; the scope that was current is current again. If the call fails,
whatever was under way, the tokens are those it was called with, also when they had been put aside for
the field of a string, and so is the depth (`Orderly`). So every loop of the grammar comes to an end,
and the check for rounds that read nothing is never needed (`Rounds`).
-/

namespace ConceptForest.Script.Parser

open Scopes (performAll performAll_onward)

variable {n k : Nat} {α β : Type} {p q : Parser}

/-- A call of the rule on `p` leaves tokens and depth as it found them. If it succeeds, it has moved
on, the end of the tokens is still in front, and the current scope is the one it was. -/
structure Orderly (rule : Rule α) (p : Parser) : Prop where
  tokens : (leftBy rule p).tokens = p.tokens
  depth : (leftBy rule p).depth = p.depth
  forward : ∀ a q, rule p = .ok a q → p.place < q.place ∧ q.place < p.tokens.length
  scope : ∀ a q, rule p = .ok a q → q.scopes.current = p.scopes.current

/-- Run again and again as long as it goes on, the round comes to an end. -/
inductive Ends (round : Rule (Option α)) : Parser → Prop where
  | here {p : Parser} (stops : ∀ a q, round p ≠ .ok (some a) q) : Ends round p
  | further {p q : Parser} {a : α} (goesOn : round p = .ok (some a) q) (ends : Ends round q) :
    Ends round p

/-- The loop over such rounds comes to an end, and it does no more than to run them until one
declines. -/
structure Rounds (round : Rule (Option α)) (p : Parser) : Prop where
  ends : Ends round p
  plain : many round p = (do
    match ← round with
    | none => return []
    | some a => return a :: (← many round)) p

/-! ### From readers to rules -/

section

variable {front : List Token → Prop} {scopes : Scopes} {rule : Rule β} {reader : Reader α}
  {value : α → β} {after : α → Scopes} {b : β} {a : α} {place : Nat}

/-- What a rule finds, its reader has read. -/
theorem Runs.exists_of_ok (runs : Runs n k front scopes rule reader value after)
    (fits : p.Fits n k) (same : p.scopes = scopes) (here : front p.rest) (run : rule p = .ok b q) :
    ∃ a place, reader p.rest = .ok (a, p.tokens.drop place) ∧ value a = b ∧
      place < p.tokens.length ∧ q = { p with place, scopes := after a } := by
  obtain ⟨reads, fails⟩ := runs p fits same here
  cases read : reader p.rest with
  | error e =>
    obtain ⟨q', failed, -⟩ := fails e read
    cases failed.symm.trans run
  | ok found =>
    obtain ⟨a, us⟩ := found
    obtain ⟨place, -, within, rfl, found⟩ := reads a us read
    obtain ⟨told, rfl⟩ := EStateM.Result.ok.inj (found.symm.trans run)
    exact ⟨a, place, rfl, told, within, rfl⟩

/-- However it ends, tokens and depth are kept. -/
theorem Runs.kept (runs : Runs n k front scopes rule reader value after) (fits : p.Fits n k)
    (same : p.scopes = scopes) (here : front p.rest) :
    (leftBy rule p).tokens = p.tokens ∧ (leftBy rule p).depth = p.depth := by
  obtain ⟨reads, fails⟩ := runs p fits same here
  cases read : reader p.rest with
  | error e =>
    obtain ⟨q, failed, kept⟩ := fails e read
    rwa [leftBy_of_error failed]
  | ok found =>
    obtain ⟨place, -, -, -, run⟩ := reads found.1 found.2 read
    rw [leftBy_of_ok run]
    exact ⟨rfl, rfl⟩

/-- Where something has been read, the parser stands further on. -/
theorem place_lt {read : List Token} (whole : p.rest = read ++ p.tokens.drop place)
    (passed : read ≠ []) (within : place < p.tokens.length) : p.place < place := by
  have length := congrArg List.length whole
  have some := List.length_pos_iff.mpr passed
  rw [rest, List.length_append, List.length_drop, List.length_drop] at length
  omega

end

/-- A rule that runs as a reader which advances, and keeps the current scope. -/
theorem Runs.orderly {rule : Rule β} {reader : Reader α} {value : α → β}
    {after : Scopes → α → Scopes}
    (runs : ∀ scopes, Runs n k Anywhere scopes rule reader value (after scopes))
    (stays : ∀ scopes a, (after scopes a).current = scopes.current) (fits : p.Fits n k)
    (advances : Advances reader p.rest) : Orderly rule p := by
  obtain ⟨tokens, depth⟩ := (runs p.scopes).kept fits rfl trivial
  refine ⟨tokens, depth, fun b q run => ?_, fun b q run => ?_⟩
  · obtain ⟨a, place, read, -, within, rfl⟩ := (runs p.scopes).exists_of_ok fits rfl trivial run
    obtain ⟨before, whole, passed, -⟩ := advances a _ read
    exact ⟨place_lt whole passed within, within⟩
  · obtain ⟨a, place, -, -, -, rfl⟩ := (runs p.scopes).exists_of_ok fits rfl trivial run
    exact stays p.scopes a

theorem Agrees.orderly {rule : Rule α} {reader : Reader α} (agrees : Agrees n k Anywhere rule reader)
    (fits : p.Fits n k) (advances : Advances reader p.rest) : Orderly rule p :=
  Runs.orderly agrees (fun _ _ => rfl) fits advances

/-! ### Loops -/

/-- A round that goes on has moved on in the same tokens. -/
def MovesOn (round : Rule (Option α)) (p : Parser) : Prop :=
  ∀ a q, round p = .ok (some a) q →
    q.tokens = p.tokens ∧ p.place < q.place ∧ q.place < p.tokens.length

/-- Rounds that move on wherever they stand in the tokens make a loop that comes to an end. -/
theorem Rounds.of_movesOn {round : Rule (Option α)} {ts : List Token}
    (moves : ∀ p : Parser, p.tokens = ts → p.place < ts.length → MovesOn round p)
    (same : p.tokens = ts) (before : p.place < ts.length) : Rounds round p := by
  constructor
  · induction left : p.left using Nat.strongRecOn generalizing p with
    | ind l ih =>
      by_cases goesOn : ∃ a q, round p = .ok (some a) q
      · obtain ⟨a, q, run⟩ := goesOn
        obtain ⟨tokens, later, within⟩ := moves p same before a q run
        have fewer : q.left < l := by
          rw [← left, Parser.left, Parser.left, tokens]
          omega
        exact .further run (ih q.left fewer (tokens.trans same) (same ▸ within) rfl)
      · exact .here fun a q run => goesOn ⟨a, q, run⟩
  · rw [many]
    cases run : round p with
    | error e q => exact (bind_of_error run).symm
    | ok found q =>
      rw [bind_of_ok run]
      cases found with
      | none => rfl
      | some a =>
        obtain ⟨tokens, later, within⟩ := moves p same before a q run
        dsimp only
        rw [if_pos (by rw [Parser.left, Parser.left, tokens]; omega)]
        cases others : many round q with
        | error e q' => exact (bind_of_error others).symm
        | ok as q' =>
          rw [bind_of_ok others]
          rfl

theorem Runs.movesOn {round : Rule (Option β)} {round' : Reader (Option α)}
    {value : Option α → Option β} {after : Option α → Scopes}
    (runs : Runs n k Anywhere p.scopes round round' value after)
    (some_of : ∀ found b, value found = some b → ∃ a, found = some a) (fits : p.Fits n k)
    (passes : ∀ us a rest, round' us = .ok (some a, rest) → ∃ read, us = read ++ rest ∧ read ≠ []) :
    MovesOn round p := by
  intro b q run
  obtain ⟨found, place, read, told, within, rfl⟩ := runs.exists_of_ok fits rfl trivial run
  obtain ⟨a, rfl⟩ := some_of found b told
  obtain ⟨before, whole, passed⟩ := passes _ a _ read
  exact ⟨rfl, place_lt whole passed within, within⟩

/-! ### The loops of the grammar -/

/-- A round of a repetition that asks first. -/
def roundOf (more : Rule Bool) (item : Rule α) : Rule (Option α) := do
  if ← more then return some (← item) else return none

/-- Does another item follow behind a comma? -/
def commaAnd (stop : Rule Bool) : Rule Bool := do
  if ← eatOp "," then return !(← stop) else return false

theorem roundOf_movesOn {more : Rule Bool} {more' : Reader Bool} {item : Rule α} {item' : Reader α}
    (asked : Agrees n k Anywhere more more') (agrees : Agrees n k Anywhere item item')
    (loops : Loops (Reader.manyWhile more' item') (Script.roundOf more' item'))
    (fits : p.Fits n k) : MovesOn (roundOf more item) p := by
  have rounds : Agrees n k Anywhere (roundOf more item) (Script.roundOf more' item') :=
    .choose asked (agrees.bind fun _ => .pure) .pure
  exact (rounds p.scopes).movesOn (fun _ b told => ⟨b, told⟩) fits loops.passes

theorem commaAnd_agrees {close : String} :
    Agrees n k Anywhere (commaAnd (isOp close)) (Script.commaAnd (Reader.isOp close)) :=
  .choose .eatOp (Agrees.isOp.bind fun _ => .pure) .pure

theorem Fits.peek_eq (fits : p.Fits n k) : peek p = .ok (headLexeme p.rest) p := by
  show EStateM.Result.ok _ p = _
  rw [fits.token?_eq]
  rfl

/-- A statement moves on, and so does a line break. -/
theorem moduleItem?_movesOn (statement : Orderly statement p) (fits : p.Fits n k) :
    MovesOn moduleItem? p := by
  intro a q run
  obtain ⟨l, p', peeked, run⟩ := exists_of_bind_eq_ok run
  obtain ⟨seen, rfl⟩ := EStateM.Result.ok.inj (fits.peek_eq.symm.trans peeked)
  cases l with
  | endOfInput => cases run
  | newline =>
    cases (bind_of_ok fits.advance_eq).symm.trans run
    exact ⟨rfl, Nat.lt_succ_self p.place, fits.succ_place_lt (seen ▸ Lexeme.noConfusion)⟩
  | _ =>
    obtain ⟨b, _, read, run⟩ := exists_of_bind_eq_ok run
    cases run
    exact ⟨leftBy_of_ok read ▸ statement.tokens, statement.forward b q read⟩

/-- Wherever the parser stands in front of the end, its rules are orderly and its loops end. -/
structure Calls (p : Parser) : Prop where
  statement : Orderly statement p
  simpleStatement : Orderly simpleStatement p
  test : Orderly (test body) p
  arithmetic : Orderly (body .arithmetic) p
  atom : Orderly (atom body) p
  target : Orderly (starTarget body) p
  items : Rounds moduleItem? p
  block : Rounds (blockItem? block) p
  arguments : Rounds (roundOf (commaAnd (isOp ")")) (argument body)) p
  subscripts : Rounds (roundOf (commaAnd (isOp "]")) (subscriptItem body)) p
  generators : Rounds (roundOf atGenerator (generator body)) p
  conditions : Rounds (roundOf (eatWord "if") (body .disjunction)) p

/-- On the tokens of a snippet, wherever the parser stands in them, however deep and in whichever
scope, every call leaves things in order and every loop comes to an end. -/
theorem calls_orderly {source : String} (lexed : Script.tokens source = .ok p.tokens)
    (before : p.place < p.tokens.length) : Calls p := by
  have fits : ∀ q : Parser, q.tokens = p.tokens → q.place < p.tokens.length →
      q.Fits q.room q.left := by
    intro q same before
    obtain ⟨front, here, ends, -⟩ := (laid_of_tokens lexed).ends
    exact ⟨⟨front, here, same.trans ends⟩, by rwa [same], rfl, Nat.le_refl _⟩
  have progress : ∀ q : Parser, q.tokens = p.tokens → Progress q.room q.rest := fun q same =>
    grammar_progress q.room lexed (same ▸ List.drop_suffix q.place q.tokens)
  have here := fits p rfl before
  have made := progress p rfl
  have stays : ∀ (scopes : Scopes) (stmts : List Stmt),
      (performAll (outlineAll stmts) scopes).current = scopes.current := fun scopes stmts =>
    (performAll_onward (outlineAll stmts) scopes).current
  have simple : Performs p.room p.left Anywhere [] simpleStatement _ ([] ++ ·) :=
    simpleStatement_performs
  have loops : ∀ {α : Type} {more : Rule Bool} {more' : Reader Bool} {item : Rule α}
      {item' : Nat → Reader α},
      (∀ n k, Agrees n k Anywhere more more') →
      (∀ n k, Agrees n k Anywhere item (item' n)) →
      (∀ q : Parser, q.tokens = p.tokens →
        Loops (Reader.manyWhile more' (item' q.room)) (Script.roundOf more' (item' q.room))) →
      Rounds (roundOf more item) p := fun asked agrees loops => by
    refine .of_movesOn (fun q same before => ?_) rfl before
    exact roundOf_movesOn (asked _ _) (agrees _ _) (loops q same) (fits q same before)
  exact {
    statement := Runs.orderly statement_runs stays here made.statement
    simpleStatement := Runs.orderly simple stays here made.simpleStatement
    test := (body_sameLevel _ _).test.orderly here made.test
    arithmetic := (body_agrees _ _ .arithmetic).orderly here made.arithmetic
    atom := (body_sameLevel _ _).atom.orderly here made.atom
    target := (starTarget_agrees (body_sameLevel _ _) (again_agrees _ _).2).orderly here made.target
    items := .of_movesOn (fun q same before => moduleItem?_movesOn
      (Runs.orderly statement_runs stays (fits q same before) (progress q same).statement)
      (fits q same before)) rfl before
    block := .of_movesOn (fun q same before =>
      (blockItem?_runs (block_sameSuite _) q.scopes).movesOn
        (fun _ _ told => (Option.map_eq_some_iff.mp told).imp fun _ => And.left)
        (fits q same before) (progress q same).block.passes) rfl before
    arguments := loops (fun _ _ => commaAnd_agrees)
      (fun n k => argument_agrees (body_sameLevel n k)) fun q same => (progress q same).arguments
    subscripts := loops (fun _ _ => commaAnd_agrees)
      (fun n k => subscriptItem_agrees (body_sameLevel n k)) fun q same => (progress q same).subscripts
    generators := loops (fun _ _ => atGenerator_agrees)
      (fun n k => generator_agrees (body_sameLevel n k)) fun q same => (progress q same).generators
    conditions := loops (fun _ _ => .eatWord) (fun n k => (again_agrees n k).1)
      fun q same => (progress q same).conditions }

/-- In front of a string with a faulty field, forty levels deep in a function. -/
theorem calls_orderly_field : ∃ ts, Script.tokens "print(f\"\x7ba b\x7d\")\n" = .ok ts ∧
    2 < ts.length ∧ Calls ⟨ts, 2, 40, Scopes.new.push .function⟩ := by
  have accepted : (Script.tokens "print(f\"\x7ba b\x7d\")\n").toOption.isSome = true := by
    decide +kernel
  have several : ∀ ts ∈ (Script.tokens "print(f\"\x7ba b\x7d\")\n").toOption, 2 < ts.length := by
    decide +kernel
  obtain ⟨ts, some⟩ := Option.isSome_iff_exists.mp accepted
  have lexed := eq_ok_of_toOption some
  exact ⟨ts, lexed, several ts some, calls_orderly lexed (several ts some)⟩

end ConceptForest.Script.Parser
