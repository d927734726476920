import ConceptForest.Script.Error
import ConceptForest.Script.Outline

/-!
Expressions, as far as names are concerned.

An expression keeps which names it reads and binds, in which nested scopes, and in which order;
operators, literals and attribute names are dropped. It can be read, and some expressions can be
assigned to or deleted. What each use does to the names around it is an outline (`Expr.reading`,
`Expr.writing`), and whether it is allowed is decided on the expression alone (`Expr.isReadable`,
`Expr.isAssignable`, `Expr.deleteFault?`).
-/

namespace ConceptForest.Script

mutual

/-- An expression, as far as names are concerned. -/
inductive Expr where
  | name (text : String)
  /-- An expression that only reads its operands. -/
  | operation (operands : List Expr)
  | tuple (items : List Expr)
  | list (items : List Expr)
  | starred (inner : Expr)
  | member (object : Expr)
  | subscript (object : Expr) (index : List Expr)
  /-- A function without a name; its defaults are read where it stands. -/
  | lambda (parameters : List String) (defaults : List Expr) (body : Expr)
  /-- A comprehension; the first source is read where it stands. -/
  | comprehension (elements : List Expr) (first : Generator) (others : List Generator)
  /-- A name bound on the fly. -/
  | named (name : String) (value : Expr)

/-- A clause of a comprehension: a target that takes the items of a source, and conditions. -/
inductive Generator where
  | clause (target source : Expr) (conditions : List Expr)

end

/-- An expression made of operands; a single operand needs no operation. -/
def Expr.combine : List Expr → Expr
  | [only] => only
  | operands => .operation operands

/-! ### What an expression does to names -/

mutual

/-- Reading an expression. -/
def Expr.reading : Expr → List Item
  | .name text => [.read text]
  | .operation items | .tuple items | .list items => readingAll items
  | .starred inner | .member inner => inner.reading
  | .subscript object index => object.reading ++ readingAll index
  | .lambda parameters defaults body =>
    readingAll defaults ++ [.scope .function (parameters.map .bind ++ body.reading)]
  | .comprehension elements (.clause target source conditions) others =>
    source.reading ++
      [.scope .comprehension
        (target.writing ++ readingAll conditions ++ passingAll others ++ readingAll elements)]
  | .named name value => value.reading ++ [.bindOutward name]

/-- Reading expressions one after the other. -/
def readingAll : List Expr → List Item
  | [] => []
  | e :: es => e.reading ++ readingAll es

/-- Binding an expression as a target. -/
def Expr.writing : Expr → List Item
  | .name text => [.bind text]
  | .tuple items | .list items => writingAll items
  | .starred inner => inner.writing
  | .member inner => inner.reading
  | .subscript object index => object.reading ++ readingAll index
  | .operation _ | .lambda _ _ _ | .comprehension _ _ _ | .named _ _ => []

/-- Binding targets one after the other. -/
def writingAll : List Expr → List Item
  | [] => []
  | e :: es => e.writing ++ writingAll es

/-- Going through the clauses of a comprehension behind the first. -/
def passingAll : List Generator → List Item
  | [] => []
  | .clause target source conditions :: gs =>
    source.reading ++ target.writing ++ readingAll conditions ++ passingAll gs

end

/-! ### What may be done with an expression -/

mutual

/-- Can the expression be read? The targets of its comprehensions must be assignable. -/
def Expr.isReadable : Expr → Bool
  | .name _ => true
  | .operation items | .tuple items | .list items => allReadable items
  | .starred inner | .member inner => inner.isReadable
  | .subscript object index => object.isReadable && allReadable index
  | .lambda _ defaults body => allReadable defaults && body.isReadable
  | .comprehension elements (.clause target source conditions) others =>
    source.isReadable && target.isAssignable && allReadable conditions && allPassable others &&
      allReadable elements
  | .named _ value => value.isReadable

def allReadable : List Expr → Bool
  | [] => true
  | e :: es => e.isReadable && allReadable es

/-- Can the expression be assigned to? -/
def Expr.isAssignable : Expr → Bool
  | .name _ => true
  | .tuple items | .list items => allAssignable items
  | .starred inner => inner.isAssignable
  | .member inner => inner.isReadable
  | .subscript object index => object.isReadable && allReadable index
  | .operation _ | .lambda _ _ _ | .comprehension _ _ _ | .named _ _ => false

def allAssignable : List Expr → Bool
  | [] => true
  | e :: es => e.isAssignable && allAssignable es

def allPassable : List Generator → Bool
  | [] => true
  | .clause target source conditions :: gs =>
    source.isReadable && target.isAssignable && allReadable conditions && allPassable gs

end

mutual

/-- Why the expression cannot be deleted, the leftmost reason first. -/
def Expr.deleteFault? : Expr → Option Fault
  | .tuple items | .list items => firstDeleteFault? items
  | .name _ => none
  | .member inner => if inner.isReadable then none else some .notAssignable
  | .subscript object index =>
    if object.isReadable && allReadable index then none else some .notAssignable
  | .operation _ | .starred _ | .lambda _ _ _ | .comprehension _ _ _ | .named _ _ =>
    some .notDeletable

def firstDeleteFault? : List Expr → Option Fault
  | [] => none
  | e :: es => e.deleteFault?.or (firstDeleteFault? es)

end

/-- Why the expression cannot be the target of an augmented assignment. -/
def Expr.augmentFault? : Expr → Option Fault
  | .name _ => none
  | e@(.member _) | e@(.subscript _ _) => if e.isAssignable then none else some .notAssignable
  | _ => some .notAugmentable

/-- An augmented assignment: a name is read and bound, any other target is only assigned to. -/
def Expr.augmenting : Expr → List Item
  | .name text => [.read text, .bind text]
  | e => e.writing

/-! ### The height of an expression -/

mutual

/-- The number of expressions on the longest way down. -/
def Expr.height : Expr → Nat
  | .name _ => 1
  | .operation items | .tuple items | .list items => heightAll items + 1
  | .starred inner | .member inner => inner.height + 1
  | .subscript object index => max object.height (heightAll index) + 1
  | .lambda _ defaults body => max (heightAll defaults) body.height + 1
  | .comprehension elements first others =>
    max (heightAll elements) (max first.height (heightClauses others)) + 1
  | .named _ value => value.height + 1

def Generator.height : Generator → Nat
  | .clause target source conditions =>
    max target.height (max source.height (heightAll conditions))

def heightAll : List Expr → Nat
  | [] => 0
  | e :: es => max e.height (heightAll es)

def heightClauses : List Generator → Nat
  | [] => 0
  | g :: gs => max g.height (heightClauses gs)

end

end ConceptForest.Script
