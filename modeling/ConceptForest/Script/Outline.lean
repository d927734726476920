/-!
Outlines: what happens to names in a snippet, scope by scope.

An outline is the list of events in source order, with a nested outline for every scope that is
entered. It is all that name resolution needs, and it says nothing of syntax.
-/

namespace ConceptForest.Script

/-- The kinds of scopes inside of a module. -/
inductive ScopeKind where
  /-- A function, with or without a name. -/
  | function
  | classBody
  | comprehension
  deriving DecidableEq, Repr

/-- What can happen to names in a scope. -/
inductive Item where
  | read (name : String)
  | bind (name : String)
  /-- The name is bound in the nearest scope around that is not a comprehension. -/
  | bindOutward (name : String)
  | declareGlobal (name : String)
  | declareNonlocal (name : String)
  | scope (kind : ScopeKind) (items : List Item)
  deriving Repr

mutual

/-- The names that the item binds outward from a comprehension it stands in. -/
def Item.outwardNames : Item → List String
  | .bindOutward name => [name]
  | .scope .comprehension items => outwardNamesAll items
  | _ => []

/-- The names that the items bind outward from a comprehension they stand in. -/
def outwardNamesAll : List Item → List String
  | [] => []
  | item :: items => item.outwardNames ++ outwardNamesAll items

end

end ConceptForest.Script
