import ConceptForest.Script.Expr

/-!
Statements, as far as names are concerned.

Control flow does not change what names mean, so the bodies of loops, branches and handlers stand
flat among the statements around them. Functions and classes keep their bodies apart: they are
scopes.
-/

namespace ConceptForest.Script

/-- A statement, as far as names are concerned. -/
inductive Stmt where
  | read (value : Expr)
  /-- The target is bound, or given up. -/
  | assign (target : Expr)
  | augment (target : Expr)
  | bind (name : String)
  | declareGlobal (name : String)
  | declareNonlocal (name : String)
  /-- A function or a class; its parameters are bound in its scope. -/
  | scope (kind : ScopeKind) (parameters : List String) (body : List Stmt)

mutual

/-- What a statement does to names. -/
def Stmt.outline : Stmt → List Item
  | .read value => value.reading
  | .assign target => target.writing
  | .augment target => target.augmenting
  | .bind name => [.bind name]
  | .declareGlobal name => [.declareGlobal name]
  | .declareNonlocal name => [.declareNonlocal name]
  | .scope kind parameters body => [.scope kind (parameters.map .bind ++ outlineAll body)]

/-- What statements do to names, one after the other. -/
def outlineAll : List Stmt → List Item
  | [] => []
  | s :: rest => s.outline ++ outlineAll rest

end

theorem outlineAll_append (statements more : List Stmt) :
    outlineAll (statements ++ more) = outlineAll statements ++ outlineAll more := by
  induction statements with
  | nil => rfl
  | cons s statements ih => rw [List.cons_append, outlineAll, outlineAll, ih, List.append_assoc]

mutual

/-- The expressions of a statement, in source order. -/
def Stmt.exprs : Stmt → List Expr
  | .read e | .assign e | .augment e => [e]
  | .bind _ | .declareGlobal _ | .declareNonlocal _ => []
  | .scope _ _ body => exprsAll body

/-- The expressions of statements, in source order. -/
def exprsAll : List Stmt → List Expr
  | [] => []
  | s :: rest => s.exprs ++ exprsAll rest

end

end ConceptForest.Script
