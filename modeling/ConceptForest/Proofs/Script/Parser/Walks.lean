import ConceptForest.Proofs.Steps
import ConceptForest.Script.Scopes
import ConceptForest.Script.Stmt

/-!
Outlines performed on scopes.

An outline says what happens to names, scope by scope; performed on a table of scopes (`performAll`)
it enters a scope, does there what its items say, and leaves it again. To go through an expression is
to perform its outline, unless the expression may not be used that way, and then the reason is the
same (`Goes`). However it ends, an outline that has been performed leaves the scope current that was
current before.

* `load_goes`, `store_goes`, `augment_goes`, `delete_goes` — the uses of expressions.
* `performAll_onward` — no scope is lost, none changes its kind or gets another scope around it, and
  the current one stays.
-/

namespace ConceptForest.Script

namespace Scopes

variable {scopes before middle after : Scopes} {items items' : List Item} {fault : Fault}

mutual

/-- What the item does. -/
def perform : Item → Scopes → Scopes
  | .read name, scopes => scopes.reference name
  | .bind name, scopes => scopes.bind name
  | .bindOutward name, scopes => scopes.bindOutward name
  | .declareGlobal name, scopes => scopes.declareGlobal name
  | .declareNonlocal name, scopes => scopes.declareNonlocal name
  | .scope kind items, scopes => (performAll items (scopes.push kind)).pop

/-- What the items do, one after the other. -/
def performAll : List Item → Scopes → Scopes
  | [], scopes => scopes
  | item :: items, scopes => performAll items (perform item scopes)

end

theorem performAll_append :
    performAll (items ++ items') scopes = performAll items' (performAll items scopes) := by
  induction items generalizing scopes with
  | nil => rfl
  | cons item items ih => exact ih

/-! ### Going through expressions -/

/-- The walk does that to the scopes; if there is a fault, it fails and tells the fault instead. -/
structure Goes (walk : Walk) (fault? : Option Fault) (effect : Scopes → Scopes) : Prop where
  fine : fault? = none → ∀ scopes, walk scopes = .ok () (effect scopes)
  faulty : ∀ fault, fault? = some fault → ∀ scopes, ∃ left, walk scopes = .error fault left

/-- The fault of an expression that may not be read, or not be assigned to. -/
def faultUnless (allowed : Bool) : Option Fault :=
  if allowed then none else some .notAssignable

theorem faultUnless_and (first second : Bool) :
    faultUnless (first && second) = (faultUnless first).or (faultUnless second) := by
  cases first <;> rfl

namespace Goes

variable {walk walk' : Walk} {fault? fault?' : Option Fault} {effect effect' : Scopes → Scopes}

theorem done : Goes (pure ()) none id :=
  ⟨fun _ _ => rfl, nofun⟩

theorem throw : Goes (throw fault) (some fault) effect := by
  refine ⟨nofun, ?_⟩
  rintro _ ⟨⟩ scopes
  exact ⟨scopes, rfl⟩

theorem change : Goes (modify effect) none effect :=
  ⟨fun _ _ => rfl, nofun⟩

/-- The first fault is told. -/
theorem bind (first : Goes walk fault? effect) (further : Goes walk' fault?' effect') :
    Goes (walk >>= fun _ => walk') (fault?.or fault?') (effect' ∘ effect) := by
  constructor
  · intro none scopes
    obtain ⟨none, none'⟩ := Option.or_eq_none_iff.mp none
    rw [bind_of_ok (first.fine none scopes), further.fine none']
    rfl
  · intro fault told scopes
    cases fault? with
    | some f =>
      obtain rfl : f = fault := Option.some.inj told
      obtain ⟨left, run⟩ := first.faulty f rfl scopes
      exact ⟨left, bind_of_error run⟩
    | none =>
      obtain ⟨left, run⟩ := further.faulty fault told (effect scopes)
      exact ⟨left, (bind_of_ok (first.fine rfl scopes)).trans run⟩

/-- The same fault and the same effect, told in another way. -/
theorem told (goes : Goes walk fault? effect) (faults : fault? = fault?')
    (effects : ∀ scopes, effect scopes = effect' scopes) : Goes walk fault?' effect' := by
  rwa [← faults, ← funext effects]

/-- Names are bound one after the other. -/
theorem binds (names : List String) :
    Goes (names.forM fun name => modify (.bind name)) none (performAll (names.map .bind)) := by
  induction names with
  | nil => exact done
  | cons name names ih => exact change.bind ih

end Goes

mutual

theorem load_goes : (e : Expr) → Goes (load e) (faultUnless e.isReadable) (performAll e.reading)
  | .name _ => .change
  | .operation items | .tuple items | .list items => loadAll_goes items
  | .starred inner | .member inner => load_goes inner
  | .subscript object index =>
    ((load_goes object).bind (loadAll_goes index)).told (faultUnless_and ..).symm
      fun _ => performAll_append.symm
  | .lambda parameters defaults body => by
    refine ((loadAll_goes defaults).bind (Goes.change.bind ((Goes.binds parameters).bind
      ((load_goes body).bind .change)))).told ?_ fun scopes => ?_
    · simp [Expr.isReadable, faultUnless_and]
    · simp [Expr.reading, performAll_append, performAll, perform]
  | .comprehension elements (.clause target source conditions) others => by
    refine ((load_goes source).bind (Goes.change.bind ((store_goes target).bind
      ((loadAll_goes conditions).bind ((passAll_goes others).bind
        ((loadAll_goes elements).bind .change)))))).told ?_ fun scopes => ?_
    · simp [Expr.isReadable, faultUnless_and, Option.or_assoc]
    · simp [Expr.reading, performAll_append, performAll, perform]
  | .named name value =>
    ((load_goes value).bind .change).told Option.or_none fun scopes =>
      show performAll [.bindOutward name] (performAll value.reading scopes) = _ from
        performAll_append.symm

theorem loadAll_goes : (es : List Expr) →
    Goes (loadAll es) (faultUnless (allReadable es)) (performAll (readingAll es))
  | [] => .done
  | e :: es => ((load_goes e).bind (loadAll_goes es)).told (faultUnless_and ..).symm
      fun _ => performAll_append.symm

theorem store_goes : (e : Expr) → Goes (store e) (faultUnless e.isAssignable) (performAll e.writing)
  | .name _ => .change
  | .tuple items | .list items => storeAll_goes items
  | .starred inner => store_goes inner
  | .member inner => load_goes inner
  | .subscript object index =>
    ((load_goes object).bind (loadAll_goes index)).told (faultUnless_and ..).symm
      fun _ => performAll_append.symm
  | .operation _ | .lambda _ _ _ | .comprehension _ _ _ | .named _ _ => .throw

theorem storeAll_goes : (es : List Expr) →
    Goes (storeAll es) (faultUnless (allAssignable es)) (performAll (writingAll es))
  | [] => .done
  | e :: es => ((store_goes e).bind (storeAll_goes es)).told (faultUnless_and ..).symm
      fun _ => performAll_append.symm

theorem passAll_goes : (gs : List Generator) →
    Goes (passAll gs) (faultUnless (allPassable gs)) (performAll (passingAll gs))
  | [] => .done
  | .clause target source conditions :: gs => by
    refine ((load_goes source).bind ((store_goes target).bind ((loadAll_goes conditions).bind
      (passAll_goes gs)))).told ?_ fun scopes => ?_
    · simp [allPassable, faultUnless_and, Option.or_assoc]
    · simp [passingAll, performAll_append]

end

theorem augment_goes (e : Expr) : Goes (augment e) e.augmentFault? (performAll e.augmenting) := by
  cases e with
  | name text => exact Goes.change.bind .change
  | member inner => exact store_goes (.member inner)
  | subscript object index => exact store_goes (.subscript object index)
  | _ => exact .throw

mutual

theorem delete_goes : (e : Expr) → Goes (delete e) e.deleteFault? (performAll e.writing)
  | .tuple items | .list items => deleteAll_goes items
  | .name text => store_goes (.name text)
  | .member inner => store_goes (.member inner)
  | .subscript object index => store_goes (.subscript object index)
  | .operation _ | .starred _ | .lambda _ _ _ | .comprehension _ _ _ | .named _ _ => .throw

theorem deleteAll_goes : (es : List Expr) →
    Goes (deleteAll es) (firstDeleteFault? es) (performAll (writingAll es))
  | [] => .done
  | e :: es => ((delete_goes e).bind (deleteAll_goes es)).told rfl fun _ => performAll_append.symm

end

/-! ### What stays -/

/-- What about a scope never changes. -/
def place (s : Scope) : Option ScopeKind × Option Nat :=
  (s.kind, s.parent)

/-- The same scope is current, and every scope that was there has the kind and the scope around it
that it had. -/
structure Onward (before after : Scopes) : Prop where
  current : after.current = before.current
  places : before.table.map place <+: after.table.map place

namespace Onward

theorem refl : Onward scopes scopes :=
  ⟨rfl, List.prefix_refl _⟩

theorem trans (first : Onward before middle) (further : Onward middle after) :
    Onward before after :=
  ⟨further.current.trans first.current, first.places.trans further.places⟩

/-- A change of a scope that keeps its place. -/
theorem modify {number : Nat} {change : Scope → Scope} (keeps : ∀ s, place (change s) = place s) :
    Onward scopes { scopes with table := scopes.table.modify number change } := by
  refine ⟨rfl, ?_⟩
  have same : (scopes.table.modify number change).map place = scopes.table.map place := by
    refine List.ext_getElem? fun i => ?_
    simp only [List.getElem?_map, List.getElem?_modify]
    split
    · cases scopes.table[i]? with
      | none => rfl
      | some s => exact congrArg some (keeps s)
    · cases scopes.table[i]? <;> rfl
  exact same ▸ List.prefix_refl _

theorem bindIn {number : Nat} {name : String} : Onward scopes (scopes.bindIn number name) := by
  unfold Scopes.bindIn
  split
  · exact refl
  · split
    · exact modify fun _ => rfl
    · split
      · exact refl
      · exact modify fun _ => rfl

theorem declare {change : Scope → Scope} (keeps : ∀ s, place (change s) = place s) :
    Onward scopes (scopes.declare change) := by
  unfold Scopes.declare
  split
  · exact refl
  · exact modify keeps

/-- A scope that has been entered is left for the scope it was entered from. -/
theorem within {kind : ScopeKind} (inside : Onward (scopes.push kind) after) :
    Onward scopes after.pop := by
  obtain ⟨current, rest, whole⟩ := inside
  rw [push, List.map_append] at whole
  constructor
  · have entered : (after.table.map place)[scopes.table.length]? =
        some (some kind, some scopes.current) := by simp [← whole, place]
    rw [List.getElem?_map, Option.map_eq_some_iff] at entered
    obtain ⟨scope, there, here⟩ := entered
    obtain ⟨-, around⟩ := Prod.ext_iff.mp here
    rw [pop, current, push, there, Option.bind_some]
    exact congrArg (·.getD module) around
  · exact ⟨_, List.append_assoc .. ▸ whole⟩

end Onward

mutual

theorem perform_onward : (item : Item) → (scopes : Scopes) → Onward scopes (perform item scopes)
  | .read _, _ => ⟨rfl, List.prefix_refl _⟩
  | .bind _, _ => .bindIn
  | .bindOutward _, _ => .bindIn
  | .declareGlobal _, _ => .declare fun _ => rfl
  | .declareNonlocal _, _ => .declare fun _ => rfl
  | .scope _ items, _ => .within (performAll_onward items _)

theorem performAll_onward : (items : List Item) → (scopes : Scopes) →
    Onward scopes (performAll items scopes)
  | [], _ => .refl
  | item :: items, scopes => (perform_onward item scopes).trans (performAll_onward items _)

end

end Scopes

end ConceptForest.Script
