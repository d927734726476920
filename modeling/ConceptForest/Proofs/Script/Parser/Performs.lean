import ConceptForest.Proofs.Script.Parser.Agrees
import ConceptForest.Proofs.Script.Parser.Walks
import ConceptForest.Script.Parser.Statements

/-!
Rules of a parser that perform what readers read.

A reader of statements hands on the statements it has read. The rule beside it hands on nothing: it
has performed their outline on the scopes, behind what had been performed before (`Performs`). Again
there is one lemma for every way to put rules together, and one for every use of an expression; the
fault of an expression that may not be used that way is told at the same token.
-/

namespace ConceptForest.Script.Parser

open Scopes (performAll performAll_append perform)

variable {n k : Nat} {front : List Token → Prop} {done : List Stmt} {α β γ : Type}

/-- Once the statements of `done` have been performed on the scopes, the rule reads what the reader
reads, and performs further statements: all in all `stmts` of what has been read. -/
def Performs (n k : Nat) (front : List Token → Prop) (done : List Stmt) (rule : Rule Unit)
    (reader : Reader α) (stmts : α → List Stmt) : Prop :=
  ∀ scopes, Runs n k front (performAll (outlineAll done) scopes) rule reader (fun _ => ())
    fun a => performAll (outlineAll (stmts a)) scopes

/-- A keyword at the front is not the end of the input. -/
theorem keyword_inside {word : String} (some : word ≠ "" := by decide) (us : List Token)
    (here : front us ∧ (word ≠ "" → headLexeme us = .name word)) : headLexeme us ≠ .endOfInput := by
  simp [here.2 some]

namespace Performs

variable {rule rule' : Rule Unit} {reader reader' : Reader α} {stmts : α → List Stmt}
  {found : β → List Stmt} {m : Rule γ} {r : Reader γ} {question : Rule Bool}
  {question' : Reader Bool}

theorem pure {a : α} (all : stmts a = done) :
    Performs n k front done (pure ()) (pure a) stmts :=
  fun scopes => .pure rfl (by rw [all])

theorem bind {g : α → Reader β} (first : Performs n k front done rule reader stmts)
    (further : ∀ a, Performs n k Anywhere (stmts a) rule' (g a) found) :
    Performs n k front done (rule >>= fun _ => rule') (reader >>= g) found :=
  fun scopes => (first scopes).bind fun a => further a scopes

/-- Something that performs nothing stands in front. -/
theorem after {f : γ → Rule Unit} {g : γ → Reader α} (first : Agrees n k front m r)
    (further : ∀ c, Performs n k Anywhere done (f c) (g c) stmts) :
    Performs n k front done (m >>= f) (r >>= g) stmts :=
  fun scopes => (first _).bind fun c => further c scopes

/-- The same statements, behind others. -/
theorem behind (performs : Performs n k front [] rule reader stmts) :
    Performs n k front done rule reader fun a => done ++ stmts a := by
  intro scopes
  simp only [outlineAll_append, performAll_append]
  exact performs _

theorem under (performs : Performs n k Anywhere done rule reader stmts) :
    Performs n k front done rule reader stmts :=
  fun scopes => (performs scopes).under

theorem mono {j : Nat} (performs : Performs n k front done rule reader stmts) (less : j ≤ k) :
    Performs n j front done rule reader stmts :=
  fun scopes => (performs scopes).mono less

/-- The reader makes something else of what it has read. -/
theorem returning {made : α → β} (performs : Performs n k front done rule reader stmts)
    (same : ∀ a, found (made a) = stmts a) :
    Performs n k front done rule (reader >>= fun a => Pure.pure (made a)) found :=
  fun scopes => (performs scopes).returning (fun _ => rfl) fun a => by rw [same]

theorem either {condition : Prop} [Decidable condition]
    (yes : Performs n k front done rule reader stmts)
    (no : Performs n k front done rule' reader' stmts) :
    Performs n k front done (if condition then rule else rule')
      (if condition then reader else reader') stmts :=
  fun scopes => .either (fun _ => yes scopes) fun _ => no scopes

/-- One rule or the other, depending on what is at the front. -/
theorem choose (asked : Agrees n k front question question')
    (yes : Performs n k Anywhere done rule reader stmts)
    (no : Performs n k Anywhere done rule' reader' stmts) :
    Performs n k front done (question >>= fun answer => if answer = true then rule else rule')
      (question' >>= fun answer => if answer = true then reader else reader') stmts :=
  after asked fun _ => either yes no

theorem skip (inside : ∀ us, front us → headLexeme us ≠ .endOfInput)
    (further : Performs n (k - 1) Anywhere done rule reader stmts) :
    Performs n k front done (advance >>= fun _ => rule) (Reader.advance >>= fun _ => reader) stmts :=
  fun scopes => .skip inside (further.under scopes)

theorem peek {f : Lexeme → Rule Unit} {g : Lexeme → Reader α}
    (each : ∀ l, Performs n k (fun us => front us ∧ headLexeme us = l) done (f l) (g l) stmts) :
    Performs n k front done (peek >>= f) (Reader.peek >>= g) stmts :=
  fun scopes => .peek fun l => each l scopes

theorem fail {fault : Fault} :
    Performs n k front done (fail fault) (Reader.fail fault) stmts :=
  fun _ => .fail

theorem unexpected : Performs n k front done unexpected Reader.unexpected stmts :=
  fun _ => .unexpected

theorem keyword {f : String → Rule Unit} {g : String → Reader α}
    (each : ∀ word, Performs n k (fun us => front us ∧ (word ≠ "" → headLexeme us = .name word)) done
      (f word) (g word) stmts) :
    Performs n k front done (keyword >>= f) (Reader.keyword >>= g) stmts :=
  fun scopes => .keyword fun word => each word scopes

/-! ### Repetition -/

section

variable {more : Rule Bool} {more' : Reader Bool} {item : Rule Unit} {item' : Reader β}
  {next : List Unit → Rule Unit} {g : List β → Reader α}

/-- What the rounds of a loop perform, one after the other. -/
theorem foldl_performAll (bs : List β) (scopes : Scopes) :
    bs.foldl (fun scopes b => performAll (outlineAll (found b)) scopes) scopes =
      performAll (outlineAll (bs.flatMap found)) scopes := by
  induction bs generalizing scopes with
  | nil => rfl
  | cons b bs ih => rw [List.flatMap_cons, outlineAll_append, performAll_append, ← ih, List.foldl_cons]

theorem manyWhile (asked : Agrees n k Anywhere more more')
    (each : Performs n k Anywhere [] item item' found)
    (further : ∀ bs, Performs n k Anywhere (done ++ bs.flatMap found) (next (bs.map fun _ => ()))
      (g bs) stmts) :
    Performs n k front done (manyWhile more item >>= next) (Reader.manyWhile more' item' >>= g)
      stmts := by
  refine fun scopes => (Runs.manyWhile asked each).bind fun bs => ?_
  rw [foldl_performAll, ← performAll_append, ← outlineAll_append]
  exact further bs scopes

theorem oneAndMore (asked : Agrees n k Anywhere more more')
    (each : Performs n k Anywhere [] item item' found)
    (further : ∀ bs, Performs n k Anywhere (done ++ bs.flatMap found) (next (bs.map fun _ => ()))
      (g bs) stmts) :
    Performs n k front done (oneAndMore more item >>= next) (Reader.oneAndMore more' item' >>= g)
      stmts := by
  refine fun scopes => (Runs.oneAndMore asked each).bind fun bs => ?_
  rw [foldl_performAll, ← performAll_append, ← outlineAll_append]
  exact further bs scopes

/-- Single statements, one or more. -/
theorem statements {item' : Reader Stmt} (asked : Agrees n k Anywhere more more')
    (each : Performs n k Anywhere [] item item' fun s => [s]) :
    Performs n k front done (Parser.oneAndMore more item >>= fun _ => Pure.pure ())
      (Reader.oneAndMore more' item') (done ++ ·) := by
  rw [← bind_pure (Reader.oneAndMore more' item')]
  exact oneAndMore asked each fun ss => pure (by rw [List.flatMap_singleton'])

/-- The same for each of the expressions. -/
theorem forM {act : Expr → Rule Unit} {read : Expr → Reader Stmt}
    (each : ∀ e, Performs n k Anywhere [] (act e) (read e) fun s => [s]) (es : List Expr) :
    Performs n k front done (es.forM act) (es.mapM read) (done ++ ·) := by
  refine under ?_
  induction es generalizing done with
  | nil => exact pure (List.append_nil done)
  | cons e es ih =>
    rw [List.mapM_cons]
    exact (each e).behind.bind fun s => ih.returning fun ss => by simp

end

end Performs

/-! ### Uses of expressions -/

/-- A walk that does what the statement says, or fails. -/
theorem walk_performs {steps : Scopes.Walk} {fault? : Option Fault} {reader : Reader Stmt} (s : Stmt)
    (goes : Scopes.Goes steps fault? (performAll s.outline))
    (reads : reader = fault?.elim (pure s) Reader.fail) :
    Performs n k front done (walk steps) reader fun s => done ++ [s] := by
  subst reads
  refine .behind ?_
  rintro scopes p fits rfl -
  have told := fits.position_eq
  cases fault? with
  | none =>
    refine ⟨?_, nofun⟩
    rintro _ _ ⟨⟩
    refine ⟨p.place, Nat.le_refl _, fits.within, rfl, ?_⟩
    refine (bind_of_ok rfl).trans <| (bind_of_ok (run_get p)).trans ?_
    rw [goes.fine rfl]
    exact congrArg (fun items => EStateM.Result.ok () { p with scopes := performAll items p.scopes })
      (List.append_nil s.outline).symm
  | some fault =>
    refine ⟨nofun, ?_⟩
    rintro _ ⟨⟩
    obtain ⟨left, run⟩ := goes.faulty fault rfl p.scopes
    refine ⟨{ p with scopes := left }, ?_, rfl, rfl⟩
    refine (bind_of_ok rfl).trans <| (bind_of_ok (run_get p)).trans ?_
    rw [run, ← told]
    rfl

theorem load_performs (e : Expr) :
    Performs n k front done (load e) (reading e) fun s => done ++ [s] :=
  walk_performs (.read e) (Scopes.load_goes e) (by unfold reading Scopes.faultUnless; split <;> rfl)

theorem store_performs (e : Expr) :
    Performs n k front done (store e) (assigning e) fun s => done ++ [s] :=
  walk_performs (.assign e) (Scopes.store_goes e) (by unfold assigning Scopes.faultUnless; split <;> rfl)

theorem augment_performs (e : Expr) :
    Performs n k front done (augment e) (augmenting e) fun s => done ++ [s] :=
  walk_performs (.augment e) (Scopes.augment_goes e) (by unfold augmenting; cases e.augmentFault? <;> rfl)

theorem delete_performs (e : Expr) :
    Performs n k front done (delete e) (deleting e) fun s => done ++ [s] :=
  walk_performs (.assign e) (Scopes.delete_goes e) (by unfold deleting; cases e.deleteFault? <;> rfl)

theorem change_runs {f : Scopes → Scopes} {a : α} {scopes : Scopes} {after : α → Scopes}
    (effect : after a = f scopes) :
    Runs n k front scopes (change f) (pure a) (fun _ => ()) after := by
  rintro p fits rfl -
  refine ⟨?_, nofun⟩
  rintro _ _ ⟨⟩
  exact ⟨p.place, Nat.le_refl _, fits.within, rfl, by rw [effect]; rfl⟩

theorem change_performs {f : Scopes → Scopes} {a : α} {stmts : α → List Stmt} (s : Stmt)
    (does : ∀ scopes, performAll (outlineAll [s]) scopes = f scopes) (all : stmts a = done ++ [s]) :
    Performs n k front done (change f) (pure a) stmts :=
  fun scopes => change_runs (by rw [all, outlineAll_append, performAll_append, does])

theorem evaluated_performs {rule : Rule Expr} {reader : Reader Expr}
    (agrees : Agrees n k front rule reader) :
    Performs n k front done (evaluated rule) (Script.evaluated reader) fun s => done ++ [s] :=
  .after agrees load_performs

end ConceptForest.Script.Parser
