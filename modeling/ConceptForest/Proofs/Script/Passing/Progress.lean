import ConceptForest.Proofs.Script.Passing.Statements
import ConceptForest.Proofs.Script.TokenLayout
import Mathlib.Data.List.Basic

/-!
The rules of the grammar make progress.

A rule that reads something takes it from the front of the tokens that are left, at least one of
them, and leaves the end of the input behind. So every repetition of the grammar passes over a token
in each of its rounds, and is a plain loop: the check that ends it otherwise is never needed.
-/

namespace ConceptForest.Script

open Reader

variable {α : Type} {n m : Nat} {us ts : List Token} {r : Reader α}

/-- Whatever the rule reads from the tokens, it passes over one of them or more, and leaves some. -/
def Advances (r : Reader α) (us : List Token) : Prop :=
  ∀ a rest, r us = .ok (a, rest) → ∃ read, us = read ++ rest ∧ read ≠ [] ∧ rest ≠ []

/-- Every round that goes on passes over something, and the loop runs rounds until one declines. -/
structure Loops (loop : Reader (List α)) (round : Reader (Option α)) : Prop where
  passes : ∀ us a rest, round us = .ok (some a, rest) → ∃ read, us = read ++ rest ∧ read ≠ []
  plain : loop = do
    match ← round with
    | none => return []
    | some a => return a :: (← loop)

/-- A round of a repetition that asks first. -/
def roundOf (more : Reader Bool) (item : Reader α) : Reader (Option α) := do
  if ← more then return some (← item) else return none

/-- Does another item follow behind a comma? -/
def commaAnd (stop : Reader Bool) : Reader Bool := do
  if ← eatOp "," then return !(← stop) else return false

theorem Loops.of_reads {round : Reader (Option α)}
    (reads : Reads Anywhere round fun found read => ∀ a ∈ found, read ≠ []) :
    Loops (many round) round := by
  have passes : ∀ us a rest, round us = .ok (some a, rest) →
      ∃ read, us = read ++ rest ∧ read ≠ [] := by
    intro us a rest one
    obtain ⟨read, same, -, passed⟩ := reads us (some a) rest trivial one
    exact ⟨read, same, passed a rfl⟩
  refine ⟨passes, many_eq fun us a rest one => ?_⟩
  obtain ⟨read, rfl, passed⟩ := passes us a rest one
  have := List.length_pos_iff.mpr passed
  rw [List.length_append]
  omega

theorem Loops.of_asked {more : Reader Bool} {item : Reader α}
    (asked : Reads Anywhere more fun answer read => answer = true → read ≠ [])
    (reads : Reads Anywhere item fun _ _ => True) :
    Loops (manyWhile more item) (roundOf more item) :=
  .of_reads <| (Reads.turn asked reads).mono fun _ _ follows a here => by
    obtain ⟨before, behind, rfl, passed, -⟩ := follows a here
    exact List.append_ne_nil_of_left_ne_nil passed _

/-- Tokens that do not go over the end leave some. -/
theorem rest_ne_nil {read rest : List Token} (laid : Laid 0 0 false ts)
    (here : read ++ rest <:+ ts) (inside : ∀ t ∈ read, t.lexeme ≠ .endOfInput) (passed : read ≠ []) :
    rest ≠ [] := by
  rintro rfl
  obtain ⟨front, p, rfl, -⟩ := laid.ends
  obtain ⟨before, whole⟩ := here
  have last := congrArg List.getLast? whole
  rw [List.append_nil, List.getLast?_append_of_ne_nil _ passed, List.getLast?_concat] at last
  exact inside _ (List.mem_of_getLast? last) rfl

theorem Advances.of_reads {good : α → List Token → Prop} {source : String}
    (lexed : tokens source = .ok ts) (here : us <:+ ts) (reads : Reads Anywhere r good)
    (passes : ∀ a read, good a read → read ≠ []) : Advances r us := by
  intro a rest run
  obtain ⟨read, rfl, inside, holds⟩ := reads us a rest trivial run
  have passed := passes a read holds
  exact ⟨read, rfl, passed, rest_ne_nil (laid_of_tokens lexed) here inside passed⟩

/-- With so much room left, the rules make progress on the tokens, and the loops of the grammar come
to an end. -/
structure Progress (n : Nat) (us : List Token) : Prop where
  statement : Advances (Script.statement (.withRoom n)) us
  simpleStatement : Advances (Script.simpleStatement (.withRoom n)) us
  test : Advances (nested n).test us
  arithmetic : Advances (Script.arithmetic (.withRoom n)) us
  atom : Advances (nested n).atom us
  target : Advances (starOr (.withRoom n) ((Level.withRoom n).again .arithmetic)) us
  items : Loops (many moduleItem?) moduleItem?
  block : Loops (many (blockItem? (.withRoom n))) (blockItem? (.withRoom n))
  arguments : Loops (manyWhile (commaAnd (isOp ")")) (argument (.withRoom n)))
    (roundOf (commaAnd (isOp ")")) (argument (.withRoom n)))
  subscripts : Loops (manyWhile (commaAnd (isOp "]")) (subscriptItem (.withRoom n)))
    (roundOf (commaAnd (isOp "]")) (subscriptItem (.withRoom n)))
  generators : Loops (manyWhile atGenerator (generator (.withRoom n)))
    (roundOf atGenerator (generator (.withRoom n)))
  conditions : Loops (manyWhile (eatWord "if") ((Level.withRoom n).again .disjunction))
    (roundOf (eatWord "if") ((Level.withRoom n).again .disjunction))

/-- Wherever a rule is run on the tokens of a snippet, and however much room is left, it makes
progress, and so do the rounds of every loop. -/
theorem grammar_progress (n : Nat) {source : String} (lexed : tokens source = .ok ts) (here : us <:+ ts) :
    Progress n us := by
  have level : (Level.withRoom n).Fits (reach * n) := .withRoom n
  have suite : (Suite.withRoom n).Fits (reach * n + reach + 3) := .withRoom n (Nat.le_refl _)
  have comma : ∀ {close}, Reads Anywhere (commaAnd (isOp close)) fun answer read =>
      answer = true → read ≠ [] :=
    (reads_eatOp_and (looks_not looks_isOp)).mono fun _ _ told yes => by
      obtain ⟨t, rfl, -⟩ := told yes
      exact List.cons_ne_nil _ _
  have word : Reads Anywhere (eatWord "if") fun answer read => answer = true → read ≠ [] :=
    eats_eatWord.asked.mono fun _ _ told yes => by
      obtain ⟨t, rfl, -⟩ := told yes
      exact List.cons_ne_nil _ _
  exact {
    statement := .of_reads lexed here (statement_fits suite) fun _ _ => And.left
    simpleStatement := .of_reads lexed here (simpleStatement_fits level (Nat.le_refl _))
      fun _ _ => And.left
    test := .of_reads lexed here (nested_fits n).test fun _ _ => And.left
    arithmetic := .of_reads lexed here (arithmetic_fits level) fun _ _ => And.left
    atom := .of_reads lexed here (nested_fits n).atom fun _ _ => And.left
    target := .of_reads lexed here
      (starOr_fits level (by simp [reach]) (level.again .arithmetic)) fun _ _ => And.left
    items := .of_reads <| moduleItem?_fits.mono fun _ _ fits a here => (fits a here).1
    block := .of_reads <| (blockItem?_fits suite).mono fun _ _ fits a here => (fits a here).1
    arguments := .of_asked comma ((argument_fits level).mono fun _ _ _ => trivial)
    subscripts := .of_asked comma ((subscriptItem_fits level).mono fun _ _ _ => trivial)
    generators := .of_reads <| (Reads.turn looks_atGenerator.asked (generator_fits level)).mono
      fun _ _ follows a here => by
        obtain ⟨before, behind, rfl, -, fits⟩ := follows a here
        exact List.append_ne_nil_of_right_ne_nil _ fits.1
    conditions := .of_asked word ((level.again .disjunction).mono fun _ _ _ => trivial) }

end ConceptForest.Script
